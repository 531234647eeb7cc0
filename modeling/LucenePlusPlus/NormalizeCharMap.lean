import LucenePlusPlus.Term

/-!
`NormalizeCharMap`: the strings to be replaced, as a tree of maps with one character for each edge.
-/

namespace LucenePlusPlus

/-- A node; `submap` is empty as long as there is none. -/
inductive NormalizeCharMap
  | mk (submap : List (WChar × NormalizeCharMap)) (normStr : WString) (diff : Int)

namespace NormalizeCharMap

def new : NormalizeCharMap := mk [] [] 0

def submap : NormalizeCharMap → List (WChar × NormalizeCharMap)
  | mk submap _ _ => submap

def normStr : NormalizeCharMap → WString
  | mk _ normStr _ => normStr

def diff : NormalizeCharMap → Int
  | mk _ _ diff => diff

def get (map : NormalizeCharMap) (c : WChar) : Option NormalizeCharMap := map.submap.lookup c

def put (map : NormalizeCharMap) (c : WChar) (subMap : NormalizeCharMap) : NormalizeCharMap :=
  mk ((c, subMap) :: map.submap) map.normStr map.diff

/-- From the node where the rest of the match string begins. -/
def addFrom (replacement : WString) (diff : Int) : NormalizeCharMap → WString → Option NormalizeCharMap
  | map, [] =>
      -- there is already a mapping for singleMatch
      if map.normStr ≠ [] then none else some (mk map.submap replacement diff)
  | map, c :: rest => (addFrom replacement diff ((map.get c).getD new) rest).map (map.put c)

/-- Records a replacement; there is no result for a string that has one. -/
def add (map : NormalizeCharMap) (singleMatch replacement : WString) : Option NormalizeCharMap :=
  addFrom replacement (singleMatch.length - replacement.length) map singleMatch

def addAll : NormalizeCharMap → List (WString × WString) → Option NormalizeCharMap
  | map, [] => some map
  | map, (singleMatch, replacement) :: entries => (map.add singleMatch replacement).bind (addAll · entries)

def find : NormalizeCharMap → WString → Option NormalizeCharMap
  | map, [] => some map
  | map, c :: rest => (map.get c).bind (find · rest)

/-- What the node of a string has. -/
def info (map : NormalizeCharMap) (p : WString) : Option (WString × Int) :=
  (map.find p).map fun node => (node.normStr, node.diff)

variable {map map' subMap node : NormalizeCharMap} {c d : WChar} {p q key replacement : WString} {diff : Int}

@[simp] theorem get_new : new.get c = none := rfl

@[simp] theorem find_nil : map.find [] = some map := rfl

@[simp] theorem normStr_put : (map.put c subMap).normStr = map.normStr := rfl

@[simp] theorem diff_put : (map.put c subMap).diff = map.diff := rfl

theorem find_cons : map.find (c :: p) = (map.get c).bind (find · p) := rfl

theorem find_append : map.find (p ++ q) = (map.find p).bind (find · q) := by
  induction p generalizing map with
  | nil => rfl
  | cons c p ih =>
    rw [List.cons_append, find_cons, find_cons, Option.bind_assoc]
    exact Option.bind_congr fun subMap _ => ih

theorem find_snoc (h : map.find p = some node) : map.find (p ++ [c]) = node.get c := by
  rw [find_append, h, Option.bind_some, find_cons]
  exact Option.bind_fun_some _

theorem get_put_self : (map.put c subMap).get c = some subMap := by
  rw [get, put, submap, List.lookup_cons_self]

theorem get_put_of_ne (h : d ≠ c) : (map.put c subMap).get d = map.get d := by
  rw [get, put, submap, List.lookup_cons, beq_eq_false_iff_ne.mpr h]
  rfl

theorem info_nil : map.info [] = some (map.normStr, map.diff) := rfl

theorem info_cons : map.info (c :: p) = (map.get c).bind (info · p) := by
  rw [info, find_cons, Option.map_bind]
  rfl

theorem info_new (hp : p ≠ []) : new.info p = none := by
  obtain ⟨c, p, rfl⟩ := List.exists_cons_of_ne_nil hp
  rw [info_cons, get_new, Option.bind_none]

theorem info_getD_new : ((map.get c).getD new).info p = if p = [] ∧ map.get c = none then some ([], 0)
    else (map.info (c :: p)) := by
  rw [info_cons]
  cases hget : map.get c with
  | some subMap => rw [if_neg (by simp), Option.getD_some, Option.bind_some]
  | none =>
    rw [Option.getD_none, Option.bind_none]
    by_cases hp : p = []
    · subst hp
      rw [if_pos ⟨rfl, rfl⟩]
      rfl
    · rw [if_neg (fun h => hp h.1), info_new hp]

/-- Only the nodes on the way to the match string change; that of the string itself gets the replacement. -/
theorem info_addFrom (h : map.addFrom replacement diff key = some map') :
    map'.info p = if p = key then some (replacement, diff)
      else if p <+: key then some ((map.info p).getD ([], 0)) else map.info p := by
  induction key generalizing map map' p with
  | nil =>
    rw [addFrom] at h
    split at h
    · cases h
    · cases h
      cases p with
      | nil => rfl
      | cons d p =>
        rw [if_neg (by simp), if_neg (by simp)]
        rfl
  | cons c rest ih =>
    rw [addFrom, Option.map_eq_some_iff] at h
    obtain ⟨subMap, hsub, rfl⟩ := h
    cases p with
    | nil =>
      rw [if_neg (by simp), if_pos List.nil_prefix, info_nil, info_nil, normStr_put, diff_put]
      rfl
    | cons d p =>
      by_cases hd : d = c
      · subst hd
        rw [info_cons, get_put_self, Option.bind_some, ih hsub, info_getD_new]
        simp only [List.cons.injEq, true_and, List.cons_prefix_cons]
        split_ifs with h₁ h₂ h₃ h₄ <;> try rfl
        · rw [h₃.1, info_cons, h₃.2]
          rfl
        · exact absurd (h₄.1 ▸ List.nil_prefix) h₂
      · rw [info_cons, get_put_of_ne hd, ← info_cons, if_neg (fun h => hd (List.cons.inj h).1),
          if_neg (fun h => hd (List.cons_prefix_cons.mp h).1)]

theorem exists_addFrom (h : ∀ value, map.info key = some value → value.1 = []) :
    ∃ map', map.addFrom replacement diff key = some map' := by
  induction key generalizing map with
  | nil => exact ⟨_, if_neg (not_not.mpr (h _ info_nil))⟩
  | cons c rest ih =>
    obtain ⟨subMap, hsub⟩ := @ih ((map.get c).getD new) fun value hvalue => by
      rw [info_getD_new] at hvalue
      split at hvalue
      · cases hvalue
        rfl
      · exact h value hvalue
    exact ⟨_, congrArg (Option.map (map.put c)) hsub⟩

/-- One of the strings begins so. -/
def begins (keys : List WString) (p : WString) : Bool := keys.any fun key => p.isPrefixOf key

def value (entries : List (WString × WString)) (p : WString) : WString × Int :=
  match entries.lookup p with
  | some replacement => (replacement, p.length - replacement.length)
  | none => ([], 0)

/-- The nodes are the beginnings of match strings. -/
def Represents (map : NormalizeCharMap) (entries : List (WString × WString)) : Prop :=
  ∀ p, map.info p = if p = [] ∨ begins (entries.map Prod.fst) p then some (value entries p) else none

variable {keys : List WString} {entries done : List (WString × WString)}

theorem begins_iff : begins keys p ↔ ∃ key ∈ keys, p <+: key := by
  simp only [begins, List.any_eq_true, List.isPrefixOf_iff_prefix]

theorem begins_mono (h : p <+: q) (hq : begins keys q) : begins keys p := by
  obtain ⟨key, hmem, hpre⟩ := begins_iff.mp hq
  exact begins_iff.mpr ⟨key, hmem, h.trans hpre⟩

theorem begins_of_mem (h : p ∈ keys) : begins keys p := begins_iff.mpr ⟨p, h, List.prefix_rfl⟩

theorem lookup_eq_none_iff : entries.lookup p = none ↔ p ∉ entries.map Prod.fst := by
  rw [List.lookup_eq_none_iff]
  constructor
  · intro h hmem
    obtain ⟨entry, hentry, rfl⟩ := List.mem_map.mp hmem
    exact absurd (h entry hentry) (by simp)
  · intro h entry hentry
    rw [bne_iff_ne]
    rintro rfl
    exact h (List.mem_map_of_mem hentry)

theorem value_snoc (h : key ∉ done.map Prod.fst) : value (done ++ [(key, replacement)]) p =
    if p = key then (replacement, (key.length : Int) - replacement.length) else value done p := by
  rw [value, List.lookup_append]
  by_cases hp : p = key
  · subst hp
    rw [lookup_eq_none_iff.mpr h, if_pos rfl]
    simp
  · rw [if_neg hp]
    have : List.lookup p [(key, replacement)] = none := by
      rw [List.lookup_cons, beq_eq_false_iff_ne.mpr hp]
      rfl
    rw [this, Option.or_none, value]

theorem value_of_not_begins (h : begins (entries.map Prod.fst) p = false) : value entries p = ([], 0) := by
  rw [value, lookup_eq_none_iff.mpr fun hmem => ?_]
  rw [begins_of_mem hmem] at h
  cases h

theorem represents_new : Represents new [] := by
  intro p
  cases p with
  | nil => rfl
  | cons c p => rw [info_new (by simp), if_neg (by simp [begins])]

/-- One more match string: nothing is recorded for it, and the map that has it represents it too. -/
theorem represents_add (h : Represents map done) (hkey : key ∉ done.map Prod.fst) :
    ∃ map', map.add key replacement = some map' ∧ Represents map' (done ++ [(key, replacement)]) := by
  have hvalue : value done key = ([], 0) := by
    rw [value, lookup_eq_none_iff.mpr hkey]
  obtain ⟨map', hadd⟩ := @exists_addFrom map key replacement (key.length - replacement.length) fun value' h' => by
    rw [h key] at h'
    split at h'
    · rw [← Option.some.inj h', hvalue]
    · cases h'
  refine ⟨map', hadd, fun p => ?_⟩
  have hbegins : begins ((done ++ [(key, replacement)]).map Prod.fst) p =
      (begins (done.map Prod.fst) p || p.isPrefixOf key) := by
    rw [begins, List.map_append, List.any_append, List.map_cons, List.any_cons, List.map_nil, List.any_nil,
      Bool.or_false]
    rfl
  rw [info_addFrom hadd, h p, value_snoc hkey, hbegins]
  by_cases hp : p = key
  · subst hp
    rw [if_pos rfl, if_pos rfl, if_pos (by simp)]
  · rw [if_neg hp, if_neg hp]
    by_cases hpre : p <+: key
    · have hnew : p = [] ∨ (begins (done.map Prod.fst) p || p.isPrefixOf key) = true :=
        .inr (by rw [List.isPrefixOf_iff_prefix.mpr hpre, Bool.or_true])
      rw [if_pos hpre, if_pos hnew]
      split_ifs with hnode
      · rfl
      · rw [not_or, Bool.not_eq_true] at hnode
        rw [value_of_not_begins hnode.2]
        rfl
    · have hnot : p.isPrefixOf key = false := by
        rw [← Bool.not_eq_true, List.isPrefixOf_iff_prefix]
        exact hpre
      rw [if_neg hpre, hnot, Bool.or_false]

theorem exists_addAll (h : Represents map done) (hkeys : ((done ++ entries).map Prod.fst).Nodup) :
    ∃ map', map.addAll entries = some map' ∧ Represents map' (done ++ entries) := by
  induction entries generalizing map done with
  | nil => exact ⟨map, rfl, (List.append_nil done).symm ▸ h⟩
  | cons entry entries ih =>
    obtain ⟨key, replacement⟩ := entry
    have hkey : key ∉ done.map Prod.fst := by
      rw [List.map_append, List.map_cons, List.nodup_append] at hkeys
      exact fun hmem => hkeys.2.2 key hmem key List.mem_cons_self rfl
    obtain ⟨map₁, hadd, h₁⟩ := represents_add h hkey
    obtain ⟨map', hall, h'⟩ := ih h₁ (by rwa [List.append_assoc, List.singleton_append])
    refine ⟨map', ?_, by rwa [List.append_assoc, List.singleton_append] at h'⟩
    rw [addAll, hadd, Option.bind_some, hall]

/-- Match strings that are not the same give a map, and its nodes are their beginnings. -/
theorem exists_map (hkeys : (entries.map Prod.fst).Nodup) :
    ∃ map, new.addAll entries = some map ∧ Represents map entries :=
  @exists_addAll new entries [] represents_new hkeys

end NormalizeCharMap

end LucenePlusPlus
