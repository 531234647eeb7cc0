import Mathlib.Data.List.Induction
import Mathlib.Data.List.Nodup
import Mathlib.Logic.Function.Basic

/-!
`SimpleLRUCache`: a list of the entries, the last used one first, and a map from the keys to their places in it. A put of
a key that the cache has leaves the entry of the last put in the list.
-/

namespace LucenePlusPlus

variable {κ υ : Type}

/-- A node of the list; an iterator of the list is known by its number. -/
structure ListNode (κ υ : Type) where
  iterator : Nat
  key : κ
  value : υ

/-- `next` is the iterator that the next node gets. -/
structure SimpleLRUCache (κ υ : Type) where
  cacheSize : Nat
  cacheList : List (ListNode κ υ)
  cacheMap : κ → Option Nat
  next : Nat

namespace SimpleLRUCache

def new (cacheSize : Nat) : SimpleLRUCache κ υ := { cacheSize, cacheList := [], cacheMap := fun _ => none, next := 0 }

variable [DecidableEq κ]

def pushFront (cache : SimpleLRUCache κ υ) (key : κ) (value : υ) : SimpleLRUCache κ υ :=
  { cache with
    cacheList := { iterator := cache.next, key, value } :: cache.cacheList
    cacheMap := Function.update cache.cacheMap key (some cache.next)
    next := cache.next + 1 }

def popBack (cache : SimpleLRUCache κ υ) : SimpleLRUCache κ υ :=
  match cache.cacheList.getLast? with
  | some back =>
      { cache with
        cacheList := cache.cacheList.dropLast
        cacheMap := Function.update cache.cacheMap back.key none }
  | none => cache

def put (cache : SimpleLRUCache κ υ) (key : κ) (value : υ) : SimpleLRUCache κ υ :=
  let cache := cache.pushFront key value
  if cache.cacheList.length > cache.cacheSize then cache.popBack else cache

/-- There is no result when the iterator is not one of the list any more. -/
def get [Inhabited υ] (cache : SimpleLRUCache κ υ) (key : κ) : Option (υ × SimpleLRUCache κ υ) :=
  match cache.cacheMap key with
  | none => some (default, cache)
  | some find =>
      match cache.cacheList.find? fun node => node.iterator = find with
      | none => none
      | some node =>
          let erased := { cache with cacheList := cache.cacheList.filter fun node => node.iterator ≠ find }
          some (node.value, erased.pushFront key node.value)

def contains (cache : SimpleLRUCache κ υ) (key : κ) : Bool := (cache.cacheMap key).isSome

inductive Call (κ υ : Type)
  | put (key : κ) (value : υ)
  | get (key : κ)
  | contains (key : κ)

def call [Inhabited υ] (cache : SimpleLRUCache κ υ) : Call κ υ → Option (SimpleLRUCache κ υ)
  | .put key value => some (cache.put key value)
  | .get key => (cache.get key).map Prod.snd
  | .contains _ => some cache

def run [Inhabited υ] (cacheSize : Nat) (calls : List (Call κ υ)) : Option (SimpleLRUCache κ υ) :=
  calls.foldlM call (new cacheSize)

/-- The keys in the order of their last uses, of all uses with the last one first. -/
def distinct : List κ → List κ
  | [] => []
  | key :: uses => key :: (distinct uses).filter fun key' => key' ≠ key

/-- The `n` last used keys. -/
def held (n : Nat) (uses : List κ) : List κ := (distinct uses).take n

/-- A put uses its key, and so does a get when the key is held. -/
def use (n : Nat) (uses : List κ) : Call κ υ → List κ
  | .put key _ => key :: uses
  | .get key => if key ∈ held n uses then key :: uses else uses
  | .contains _ => uses

def usesOf (n : Nat) (calls : List (Call κ υ)) : List κ := calls.foldl (use n) []

/-- The value of the last put of a key. -/
def lastPut (calls : List (Call κ υ)) (key : κ) : Option υ :=
  calls.reverse.findSome? fun
    | .put key' value => if key' = key then some value else none
    | _ => none

/-- The cache is a map of the last used keys. -/
structure IsLRU [Inhabited υ] (n : Nat) (calls : List (Call κ υ)) (cache : SimpleLRUCache κ υ) : Prop where
  length_le : cache.cacheList.length ≤ n
  keys : cache.cacheList.map ListNode.key = held n (usesOf n calls)
  nodup : (cache.cacheList.map ListNode.key).Nodup
  values : ∀ node ∈ cache.cacheList, lastPut calls node.key = some node.value
  index : ∀ key iterator, cache.cacheMap key = some iterator ↔
    ∃ node ∈ cache.cacheList, node.key = key ∧ node.iterator = iterator
  get : ∀ key ∈ held n (usesOf n calls), ∃ value, lastPut calls key = some value ∧
    (cache.get key).map Prod.fst = some value
  contains : ∀ key, cache.contains key = true ↔ key ∈ held n (usesOf n calls)

/-- Every put is of a key that is not held. -/
def FreshPuts (n : Nat) (calls : List (Call κ υ)) : Prop :=
  ∀ before key value after, calls = before ++ .put key value :: after → key ∉ held n (usesOf n before)

variable {n : Nat} {uses : List κ} {key : κ}

theorem nodup_distinct (uses : List κ) : (distinct uses).Nodup := by
  induction uses with
  | nil => exact List.nodup_nil
  | cons key uses ih =>
      refine List.nodup_cons.mpr ⟨fun hmem => ?_, ih.filter _⟩
      exact absurd (List.mem_filter.mp hmem).2 (by simp)

theorem nodup_held (n : Nat) (uses : List κ) : (held n uses).Nodup := (nodup_distinct uses).take

theorem length_held_le (n : Nat) (uses : List κ) : (held n uses).length ≤ n := List.length_take_le n _

theorem held_cons_of_mem (hn : 1 ≤ n) (h : key ∈ held n uses) :
    held n (key :: uses) = key :: (held n uses).filter fun key' => key' ≠ key := by
  obtain ⟨n, rfl⟩ := Nat.exists_eq_add_of_le' hn
  have hsplit := List.take_append_drop (n + 1) (distinct uses)
  have hnodup := nodup_distinct uses
  rw [← hsplit] at hnodup
  have hbehind : ((distinct uses).drop (n + 1)).filter (fun key' => key' ≠ key) = (distinct uses).drop (n + 1) := by
    refine List.filter_eq_self.mpr fun key' hmem => decide_eq_true ?_
    rintro rfl
    exact (List.nodup_append.mp hnodup).2.2 key' h key' hmem rfl
  have hlength : ((held (n + 1) uses).filter fun key' => key' ≠ key).length + 1 = (held (n + 1) uses).length := by
    have herase := (nodup_held (n + 1) uses).erase_eq_filter key
    rw [show ((held (n + 1) uses).filter fun key' => key' ≠ key) = (held (n + 1) uses).erase key from ?_,
      List.length_erase_of_mem h]
    · have hpos := List.length_pos_of_mem h
      omega
    · rw [herase]
      refine List.filter_congr fun key' _ => ?_
      by_cases hsame : key' = key
      · simp [hsame]
      · simp [hsame]
  rw [held, distinct, List.take_succ_cons]
  congr 1
  conv_lhs => rw [← hsplit]
  rw [List.filter_append, hbehind]
  have hle := length_held_le (n + 1) uses
  change List.take n ((held (n + 1) uses).filter (fun key' => key' ≠ key) ++ (distinct uses).drop (n + 1)) = _
  rcases Nat.lt_or_ge (held (n + 1) uses).length (n + 1) with hlt | hge
  · have hnil : (distinct uses).drop (n + 1) = [] := by
      rw [held, List.length_take] at hlt
      exact List.drop_eq_nil_of_le (by omega)
    rw [hnil, List.append_nil, List.take_of_length_le (by omega)]
  · exact List.take_left' (by omega)

theorem held_cons_of_not_mem (hn : 1 ≤ n) (h : key ∉ held n uses) :
    held n (key :: uses) = key :: (held n uses).take (n - 1) := by
  obtain ⟨n, rfl⟩ := Nat.exists_eq_add_of_le' hn
  have hsplit := List.take_append_drop (n + 1) (distinct uses)
  have hkept : (held (n + 1) uses).filter (fun key' => key' ≠ key) = held (n + 1) uses := by
    refine List.filter_eq_self.mpr fun key' hmem => decide_eq_true ?_
    rintro rfl
    exact h hmem
  rw [held, distinct, List.take_succ_cons, Nat.add_sub_cancel]
  congr 1
  conv_lhs => rw [← hsplit]
  rw [List.filter_append]
  change List.take n ((held (n + 1) uses).filter (fun key' => key' ≠ key) ++ _) = _
  rw [hkept]
  rcases Nat.lt_or_ge (held (n + 1) uses).length n with hlt | hge
  · have hnil : (distinct uses).drop (n + 1) = [] := by
      rw [held, List.length_take] at hlt
      exact List.drop_eq_nil_of_le (by omega)
    rw [hnil, List.filter_nil, List.append_nil]
  · exact List.take_append_of_le_length hge

theorem lastPut_concat_put (calls : List (Call κ υ)) (key key' : κ) (value : υ) :
    lastPut (calls ++ [.put key value]) key' = if key = key' then some value else lastPut calls key' := by
  rw [lastPut, List.reverse_concat, List.findSome?_cons]
  by_cases h : key = key'
  · simp [h]
  · simp [h, lastPut]

theorem lastPut_concat_get (calls : List (Call κ υ)) (key key' : κ) :
    lastPut (calls ++ [.get key]) key' = lastPut calls key' := by
  rw [lastPut, List.reverse_concat, List.findSome?_cons]
  rfl

theorem lastPut_concat_contains (calls : List (Call κ υ)) (key key' : κ) :
    lastPut (calls ++ [.contains key]) key' = lastPut calls key' := by
  rw [lastPut, List.reverse_concat, List.findSome?_cons]
  rfl

theorem usesOf_concat (n : Nat) (calls : List (Call κ υ)) (call : Call κ υ) :
    usesOf n (calls ++ [call]) = use n (usesOf n calls) call := by
  rw [usesOf, List.foldl_append]
  rfl

theorem run_concat [Inhabited υ] (n : Nat) (calls : List (Call κ υ)) (last : Call κ υ) :
    run n (calls ++ [last]) = (run n calls).bind fun cache => cache.call last := by
  rw [run, List.foldlM_append]
  show (run n calls).bind _ = _
  congr 1
  funext cache
  rw [List.foldlM_cons]
  exact bind_pure _

/-! ### The list and the map -/

/-- The list has the last used keys with their values, and the map has their places in it. -/
structure Indexed (n : Nat) (calls : List (Call κ υ)) (cache : SimpleLRUCache κ υ) : Prop where
  cacheSize : cache.cacheSize = n
  keys : cache.cacheList.map ListNode.key = held n (usesOf n calls)
  values : ∀ node ∈ cache.cacheList, lastPut calls node.key = some node.value
  index : ∀ key iterator, cache.cacheMap key = some iterator ↔
    ∃ node ∈ cache.cacheList, node.key = key ∧ node.iterator = iterator
  iterators : (cache.cacheList.map ListNode.iterator).Nodup
  iterator_lt : ∀ node ∈ cache.cacheList, node.iterator < cache.next

variable {calls : List (Call κ υ)} {cache : SimpleLRUCache κ υ}

namespace Indexed

theorem nodup (h : Indexed n calls cache) : (cache.cacheList.map ListNode.key).Nodup := h.keys ▸ nodup_held n _

theorem mem_keys (h : Indexed n calls cache) : key ∈ held n (usesOf n calls) ↔ ∃ node ∈ cache.cacheList, node.key = key := by
  rw [← h.keys, List.mem_map]

theorem eq_of_key (h : Indexed n calls cache) {node node' : ListNode κ υ} (hmem : node ∈ cache.cacheList)
    (hmem' : node' ∈ cache.cacheList) (heq : node.key = node'.key) : node = node' :=
  List.inj_on_of_nodup_map h.nodup hmem hmem' heq

theorem eq_of_iterator (h : Indexed n calls cache) {node node' : ListNode κ υ} (hmem : node ∈ cache.cacheList)
    (hmem' : node' ∈ cache.cacheList) (heq : node.iterator = node'.iterator) : node = node' :=
  List.inj_on_of_nodup_map h.iterators hmem hmem' heq

theorem cacheMap_eq_none_iff (h : Indexed n calls cache) : cache.cacheMap key = none ↔ key ∉ held n (usesOf n calls) := by
  rw [Option.eq_none_iff_forall_ne_some, h.mem_keys]
  constructor
  · rintro hnone ⟨node, hmem, hkey⟩
    exact hnone node.iterator ((h.index key _).mpr ⟨node, hmem, hkey, rfl⟩)
  · rintro hnot iterator hsome
    obtain ⟨node, hmem, hkey, -⟩ := (h.index key iterator).mp hsome
    exact hnot ⟨node, hmem, hkey⟩

theorem length_le (h : Indexed n calls cache) : cache.cacheList.length ≤ n := by
  rw [← @List.length_map _ _ cache.cacheList ListNode.key, h.keys]
  exact length_held_le n _

theorem contains_iff (h : Indexed n calls cache) : cache.contains key = true ↔ key ∈ held n (usesOf n calls) := by
  rw [contains, ← Option.ne_none_iff_isSome, ne_eq, h.cacheMap_eq_none_iff, not_not]

theorem index_pushFront {nodes : List (ListNode κ υ)} {cacheMap : κ → Option Nat}
    (hindex : ∀ key' iterator, key' ≠ key → (cacheMap key' = some iterator ↔
      ∃ node ∈ nodes, node.key = key' ∧ node.iterator = iterator))
    (hkey : ∀ node ∈ nodes, node.key ≠ key) (next : Nat) (value : υ) (key' : κ) (iterator : Nat) :
    Function.update cacheMap key (some next) key' = some iterator ↔
      ∃ node ∈ { iterator := next, key, value } :: nodes, node.key = key' ∧ node.iterator = iterator := by
  by_cases heq : key' = key
  · subst heq
    rw [Function.update_self, Option.some.injEq]
    constructor
    · intro hnext
      exact ⟨_, List.mem_cons_self, rfl, hnext⟩
    · rintro ⟨node, hmem, hsame, hiterator⟩
      rcases List.mem_cons.mp hmem with rfl | hmem
      · exact hiterator
      · exact absurd hsame (hkey node hmem)
  · rw [Function.update_of_ne heq, hindex key' iterator heq]
    constructor
    · rintro ⟨node, hmem, hsame⟩
      exact ⟨node, List.mem_cons_of_mem _ hmem, hsame⟩
    · rintro ⟨node, hmem, hsame, hiterator⟩
      rcases List.mem_cons.mp hmem with rfl | hmem
      · exact absurd hsame.symm heq
      · exact ⟨node, hmem, hsame, hiterator⟩

theorem contains_call (h : Indexed n calls cache) (key : κ) : Indexed n (calls ++ [.contains key]) cache where
  cacheSize := h.cacheSize
  keys := by
    rw [usesOf_concat]
    exact h.keys
  values node hmem := by
    rw [lastPut_concat_contains]
    exact h.values node hmem
  index := h.index
  iterators := h.iterators
  iterator_lt := h.iterator_lt

theorem get_of_not_mem [Inhabited υ] (h : Indexed n calls cache) (hkey : key ∉ held n (usesOf n calls)) :
    cache.get key = some (default, cache) ∧ Indexed n (calls ++ [.get key]) cache := by
  refine ⟨by rw [get, h.cacheMap_eq_none_iff.mpr hkey], h.cacheSize, ?_, fun node hmem => ?_, h.index, h.iterators,
    h.iterator_lt⟩
  · rw [usesOf_concat, use, if_neg hkey]
    exact h.keys
  · rw [lastPut_concat_get]
    exact h.values node hmem

theorem get_of_mem [Inhabited υ] (hn : 1 ≤ n) (h : Indexed n calls cache) (hkey : key ∈ held n (usesOf n calls)) :
    ∃ value cache', lastPut calls key = some value ∧ cache.get key = some (value, cache') ∧
      Indexed n (calls ++ [.get key]) cache' := by
  obtain ⟨node, hmem, rfl⟩ := h.mem_keys.mp hkey
  have hfind : cache.cacheList.find? (fun node' => node'.iterator = node.iterator) = some node := by
    cases hfound : cache.cacheList.find? fun node' => node'.iterator = node.iterator with
    | none => exact absurd (List.find?_eq_none.mp hfound node hmem) (by simp)
    | some node' =>
        have hsame : node'.iterator = node.iterator := by simpa using List.find?_some hfound
        rw [h.eq_of_iterator (List.mem_of_find?_eq_some hfound) hmem hsame]
  have hmap : cache.cacheMap node.key = some node.iterator := (h.index _ _).mpr ⟨node, hmem, rfl, rfl⟩
  have hmem_filter : ∀ node' ∈ cache.cacheList, node'.iterator ≠ node.iterator ↔ node'.key ≠ node.key := by
    intro node' hmem'
    refine not_congr ⟨fun hsame => ?_, fun hsame => ?_⟩
    · rw [h.eq_of_iterator hmem' hmem hsame]
    · rw [h.eq_of_key hmem' hmem hsame]
  have hfilter : cache.cacheList.filter (fun node' => node'.iterator ≠ node.iterator)
      = cache.cacheList.filter fun node' => node'.key ≠ node.key :=
    List.filter_congr fun node' hmem' => decide_eq_decide.mpr (hmem_filter node' hmem')
  have hget : cache.get node.key = some (node.value, pushFront { cache with
      cacheList := cache.cacheList.filter fun node' => node'.iterator ≠ node.iterator } node.key node.value) := by
    rw [get, hmap]
    dsimp only
    rw [hfind]
  refine ⟨node.value, _, h.values node hmem, hget, h.cacheSize, ?_, fun node' hmem' => ?_,
    index_pushFront (fun key' iterator hne => ?_) (fun node' hmem' => ?_) _ _, ?_, fun node' hmem' => ?_⟩
  · rw [usesOf_concat, use, if_pos hkey, held_cons_of_mem hn hkey, ← h.keys, pushFront]
    dsimp only
    rw [hfilter, List.map_cons, List.filter_map]
    rfl
  · rw [lastPut_concat_get]
    rcases List.mem_cons.mp hmem' with rfl | hmem'
    · exact h.values node hmem
    · exact h.values node' (List.mem_of_mem_filter hmem')
  · rw [h.index key' iterator]
    refine exists_congr fun node' => ?_
    rw [hfilter, List.mem_filter, decide_eq_true_iff]
    constructor
    · rintro ⟨hmem', rfl, hiterator⟩
      exact ⟨⟨hmem', hne⟩, rfl, hiterator⟩
    · rintro ⟨⟨hmem', -⟩, hsame⟩
      exact ⟨hmem', hsame⟩
  · rw [hfilter, List.mem_filter, decide_eq_true_iff] at hmem'
    exact hmem'.2
  · refine List.nodup_cons.mpr ⟨fun hnext => ?_, (h.iterators.sublist (List.filter_sublist.map _))⟩
    obtain ⟨node', hmem', hsame⟩ := List.mem_map.mp hnext
    exact absurd (h.iterator_lt node' (List.mem_of_mem_filter hmem')) (by rw [hsame]; exact Nat.lt_irrefl _)
  · rcases List.mem_cons.mp hmem' with rfl | hmem'
    · exact Nat.lt_succ_self _
    · exact Nat.lt_succ_of_lt (h.iterator_lt node' (List.mem_of_mem_filter hmem'))

theorem popBack_concat {cache : SimpleLRUCache κ υ} {init : List (ListNode κ υ)} {back : ListNode κ υ}
    (h : cache.cacheList = init ++ [back]) :
    cache.popBack = { cache with cacheList := init, cacheMap := Function.update cache.cacheMap back.key none } := by
  rw [popBack, h, List.getLast?_concat]
  dsimp only
  rw [List.dropLast_concat]

theorem pushFront_of_lt (hn : 1 ≤ n) (h : Indexed n calls cache) (hkey : key ∉ held n (usesOf n calls)) (value : υ)
    (hroom : cache.cacheList.length < n) : Indexed n (calls ++ [.put key value]) (cache.pushFront key value) where
  cacheSize := h.cacheSize
  keys := by
    have hlength : (held n (usesOf n calls)).length < n := by
      rw [← h.keys, List.length_map]
      exact hroom
    rw [usesOf_concat, use, held_cons_of_not_mem hn hkey, List.take_of_length_le (by omega), ← h.keys]
    rfl
  values node hmem := by
    rw [lastPut_concat_put]
    rcases List.mem_cons.mp hmem with rfl | hmem
    · rw [if_pos rfl]
    · rw [if_neg (fun heq => hkey (h.mem_keys.mpr ⟨node, hmem, heq.symm⟩))]
      exact h.values node hmem
  index := index_pushFront (fun key' iterator _ => h.index key' iterator)
    (fun node hmem heq => hkey (h.mem_keys.mpr ⟨node, hmem, heq⟩)) _ _
  iterators := by
    refine List.nodup_cons.mpr ⟨fun hnext => ?_, h.iterators⟩
    obtain ⟨node, hmem, hsame⟩ := List.mem_map.mp hnext
    exact absurd (h.iterator_lt node hmem) (by rw [hsame]; exact Nat.lt_irrefl _)
  iterator_lt node hmem := by
    rcases List.mem_cons.mp hmem with rfl | hmem
    · exact Nat.lt_succ_self _
    · exact Nat.lt_succ_of_lt (h.iterator_lt node hmem)

theorem popBack_of_eq (hn : 1 ≤ n) (h : Indexed n calls cache) (hkey : key ∉ held n (usesOf n calls)) (value : υ)
    (hfull : cache.cacheList.length = n) :
    Indexed n (calls ++ [.put key value]) (cache.pushFront key value).popBack := by
  rcases List.eq_nil_or_concat cache.cacheList with hnil | ⟨init, back, hsplit⟩
  · rw [hnil, List.length_nil] at hfull
    omega
  rw [List.concat_eq_append] at hsplit
  have hlist : (cache.pushFront key value).cacheList = ({ iterator := cache.next, key, value } :: init) ++ [back] := by
    rw [pushFront, hsplit]
    rfl
  have hback : back ∈ cache.cacheList := by
    rw [hsplit]
    exact List.mem_append_right _ List.mem_cons_self
  have hinit : ∀ node ∈ init, node ∈ cache.cacheList := fun node hmem => by
    rw [hsplit]
    exact List.mem_append_left _ hmem
  have hne : ∀ node ∈ init, node.key ≠ back.key := by
    intro node hmem heq
    have hnodup := h.nodup
    rw [hsplit, List.map_append] at hnodup
    exact (List.nodup_append.mp hnodup).2.2 node.key (List.mem_map_of_mem hmem) back.key List.mem_cons_self heq
  have hfresh : ∀ node ∈ cache.cacheList, node.key ≠ key := fun node hmem heq => hkey (h.mem_keys.mpr ⟨node, hmem, heq⟩)
  rw [popBack_concat hlist]
  refine ⟨h.cacheSize, ?_, fun node hmem => ?_, fun key' iterator => ?_, ?_, fun node hmem => ?_⟩
  · have hlength : n - 1 = (init.map ListNode.key).length := by
      rw [hsplit, List.length_append, List.length_singleton] at hfull
      rw [List.length_map]
      omega
    rw [usesOf_concat, use, held_cons_of_not_mem hn hkey, ← h.keys, hsplit, List.map_append, List.take_left' hlength.symm]
    rfl
  · rw [lastPut_concat_put]
    rcases List.mem_cons.mp hmem with rfl | hmem
    · rw [if_pos rfl]
    · rw [if_neg (fun heq => hfresh node (hinit node hmem) heq.symm)]
      exact h.values node (hinit node hmem)
  · have hindex := @index_pushFront κ υ _ key init (Function.update cache.cacheMap back.key none) (fun key' iterator _ => by
      by_cases heq : key' = back.key
      · subst heq
        rw [Function.update_self]
        refine ⟨nofun, ?_⟩
        rintro ⟨node, hmem, hsame, -⟩
        exact absurd hsame (hne node hmem)
      · rw [Function.update_of_ne heq, h.index, hsplit]
        refine exists_congr fun node => and_congr_left fun ⟨hsame, _⟩ => ?_
        rw [List.mem_append, List.mem_singleton]
        refine ⟨fun hmem => hmem.resolve_right fun hlast => heq ?_, Or.inl⟩
        rw [← hsame, hlast]) (fun node hmem => hfresh node (hinit node hmem)) cache.next value key' iterator
    rw [Function.update_comm (hfresh back hback)] at hindex
    exact hindex
  · refine List.nodup_cons.mpr ⟨fun hnext => ?_, ?_⟩
    · obtain ⟨node, hmem, hsame⟩ := List.mem_map.mp hnext
      exact absurd (h.iterator_lt node (hinit node hmem)) (by rw [hsame]; exact Nat.lt_irrefl _)
    · have hiterators := h.iterators
      rw [hsplit, List.map_append] at hiterators
      exact (List.nodup_append.mp hiterators).1
  · rcases List.mem_cons.mp hmem with rfl | hmem
    · exact Nat.lt_succ_self _
    · exact Nat.lt_succ_of_lt (h.iterator_lt node (hinit node hmem))

theorem put_of_not_mem (hn : 1 ≤ n) (h : Indexed n calls cache) (hkey : key ∉ held n (usesOf n calls)) (value : υ) :
    Indexed n (calls ++ [.put key value]) (cache.put key value) := by
  have hle := h.length_le
  have hlength : (cache.pushFront key value).cacheList.length = cache.cacheList.length + 1 := rfl
  have hsize : (cache.pushFront key value).cacheSize = n := h.cacheSize
  rw [put, hlength, hsize]
  split
  case isTrue hfull => exact h.popBack_of_eq hn hkey value (by omega)
  case isFalse hroom => exact h.pushFront_of_lt hn hkey value (by omega)

/-- A put of a key that is held leaves the key twice in the list, or takes it out of the map. -/
theorem put_of_mem [Inhabited υ] (h : Indexed n calls cache) (hkey : key ∈ held n (usesOf n calls)) (value : υ)
    (calls' : List (Call κ υ)) : ¬ IsLRU n calls' (cache.put key value) := by
  intro hlru
  obtain ⟨node, hmem, rfl⟩ := h.mem_keys.mp hkey
  have htwice : ¬ ((cache.pushFront node.key value).cacheList.map ListNode.key).Nodup := fun hnodup =>
    (List.nodup_cons.mp hnodup).1 (List.mem_map.mpr ⟨node, hmem, rfl⟩)
  rw [put] at hlru
  split at hlru
  case isTrue =>
    rcases List.eq_nil_or_concat cache.cacheList with hnil | ⟨init, back, hsplit⟩
    · rw [hnil] at hmem
      exact List.not_mem_nil hmem
    rw [List.concat_eq_append] at hsplit
    have hlist : (cache.pushFront node.key value).cacheList
        = ({ iterator := cache.next, key := node.key, value } :: init) ++ [back] := by
      rw [pushFront, hsplit]
      rfl
    rw [popBack_concat hlist] at hlru
    by_cases hback : node.key = back.key
    · have hindex := (hlru.index node.key cache.next).mpr ⟨_, List.mem_cons_self, rfl, rfl⟩
      dsimp only at hindex
      rw [hback, Function.update_self] at hindex
      cases hindex
    · have hnodup := hlru.nodup
      rw [hsplit] at hmem
      rcases List.mem_append.mp hmem with hin | hlast
      · exact (List.nodup_cons.mp hnodup).1 (List.mem_map.mpr ⟨node, hin, rfl⟩)
      · exact hback (congrArg ListNode.key (List.mem_singleton.mp hlast))
  case isFalse => exact htwice hlru.nodup

theorem isLRU [Inhabited υ] (hn : 1 ≤ n) (h : Indexed n calls cache) : IsLRU n calls cache where
  length_le := h.length_le
  keys := h.keys
  nodup := h.nodup
  values := h.values
  index := h.index
  get key hkey := by
    obtain ⟨value, cache', hvalue, hget, -⟩ := h.get_of_mem hn hkey
    exact ⟨value, hvalue, by rw [hget]; rfl⟩
  contains _ := h.contains_iff

theorem new (n : Nat) : Indexed n [] (new n : SimpleLRUCache κ υ) where
  cacheSize := rfl
  keys := by
    rw [held, usesOf, List.foldl_nil, distinct, List.take_nil]
    rfl
  values _ hmem := absurd hmem List.not_mem_nil
  index _ _ := ⟨nofun, fun ⟨_, hmem, _⟩ => absurd hmem List.not_mem_nil⟩
  iterators := List.nodup_nil
  iterator_lt _ hmem := absurd hmem List.not_mem_nil

end Indexed

theorem freshPuts_nil (n : Nat) : FreshPuts n ([] : List (Call κ υ)) := fun _ _ _ _ heq => absurd heq (by simp)

theorem freshPuts_concat {last : Call κ υ} : FreshPuts n (calls ++ [last]) ↔
    FreshPuts n calls ∧ ∀ key value, last = .put key value → key ∉ held n (usesOf n calls) := by
  constructor
  · refine fun h => ⟨?_, ?_⟩
    · rintro before key value after rfl
      exact h before key value (after ++ [last]) (by rw [List.append_assoc, List.cons_append])
    · rintro key value rfl
      exact h calls key value [] rfl
  · rintro ⟨hcalls, hlast⟩ before key value after heq
    rcases List.eq_nil_or_concat after with rfl | ⟨after', last', rfl⟩
    · obtain ⟨rfl, hput⟩ := List.append_inj' heq rfl
      exact hlast key value (List.head_eq_of_cons_eq hput)
    · rw [List.concat_eq_append, ← List.cons_append, ← List.append_assoc] at heq
      exact hcalls before key value after' (List.append_inj' heq rfl).1

theorem FreshPuts.of_append {more : List (Call κ υ)} (h : FreshPuts n (calls ++ more)) : FreshPuts n calls := by
  induction more using List.reverseRecOn with
  | nil => rwa [List.append_nil] at h
  | append_singleton more last ih =>
      rw [← List.append_assoc] at h
      exact ih (freshPuts_concat.mp h).1

theorem indexed_run [Inhabited υ] (hn : 1 ≤ n) (h : FreshPuts n calls) :
    ∃ cache, run n calls = some cache ∧ Indexed n calls cache := by
  induction calls using List.reverseRecOn with
  | nil => exact ⟨_, rfl, Indexed.new n⟩
  | append_singleton calls last ih =>
      obtain ⟨hcalls, hlast⟩ := freshPuts_concat.mp h
      obtain ⟨cache, hrun, hindexed⟩ := ih hcalls
      rw [run_concat, hrun, Option.bind_some]
      cases last with
      | put key value => exact ⟨_, rfl, hindexed.put_of_not_mem hn (hlast key value rfl) value⟩
      | get key =>
          by_cases hkey : key ∈ held n (usesOf n calls)
          · obtain ⟨value, cache', -, hget, hindexed'⟩ := hindexed.get_of_mem hn hkey
            exact ⟨cache', by rw [call, hget]; rfl, hindexed'⟩
          · obtain ⟨hget, hindexed'⟩ := hindexed.get_of_not_mem hkey
            exact ⟨cache, by rw [call, hget]; rfl, hindexed'⟩
      | contains key => exact ⟨cache, rfl, hindexed.contains_call key⟩

/-- After each call of a run the cache is a map of the last used keys if and only if every put is of a key that is not
held. -/
theorem lru_cache_exact_iff [Inhabited υ] (hn : 1 ≤ n) (calls : List (Call κ υ)) :
    (∀ before after, calls = before ++ after → ∃ cache, run n before = some cache ∧ IsLRU n before cache) ↔
      FreshPuts n calls := by
  constructor
  · intro h
    induction calls using List.reverseRecOn with
    | nil => exact freshPuts_nil n
    | append_singleton calls last ih =>
        have hfresh : FreshPuts n calls := ih fun before after heq =>
          h before (after ++ [last]) (by rw [heq, List.append_assoc])
        obtain ⟨cache, hrun, hindexed⟩ := indexed_run hn hfresh
        refine freshPuts_concat.mpr ⟨hfresh, fun key value hlast hkey => ?_⟩
        subst hlast
        obtain ⟨cache', hrun', hlru⟩ := h (calls ++ [.put key value]) [] (List.append_nil _).symm
        rw [run_concat, hrun, Option.bind_some] at hrun'
        cases hrun'
        exact hindexed.put_of_mem hkey value _ hlru
  · rintro h before after rfl
    obtain ⟨cache, hrun, hindexed⟩ := indexed_run hn h.of_append
    exact ⟨cache, hrun, hindexed.isLRU hn⟩

/-- With room for two keys, the one that has not been got is evicted. -/
theorem lru_cache_exact_iff_two : ∃ cache : SimpleLRUCache Nat Nat,
    run 2 [.put 1 10, .put 2 20, .get 1, .put 3 30] = some cache ∧
      IsLRU 2 [.put 1 10, .put 2 20, .get 1, .put 3 30] cache := by
  have hfresh : @FreshPuts Nat Nat _ 2 ([] ++ [.put 1 10] ++ [.put 2 20] ++ [.get 1] ++ [.put 3 30]) := by
    refine freshPuts_concat.mpr ⟨freshPuts_concat.mpr ⟨freshPuts_concat.mpr ⟨freshPuts_concat.mpr ⟨freshPuts_nil 2, ?_⟩,
      ?_⟩, nofun⟩, ?_⟩
    · rintro key value heq
      cases heq
      decide
    · rintro key value heq
      cases heq
      decide
    · rintro key value heq
      cases heq
      decide
  exact (lru_cache_exact_iff (by decide) _).mpr hfresh _ [] rfl

/-- A key that is put twice is found no more when its first value is evicted. -/
theorem overwritten_key_is_lost :
    ¬ ∀ before after : List (Call Nat Nat), [.put 1 10, .put 1 11, .put 2 20] = before ++ after →
      ∃ cache, run 2 before = some cache ∧ IsLRU 2 before cache := by
  intro h
  obtain ⟨cache, hrun, hlru⟩ := h [.put 1 10, .put 1 11, .put 2 20] [] rfl
  cases hrun
  have hcontains := (hlru.contains 1).mpr (by decide)
  exact absurd hcontains (by decide)

end SimpleLRUCache
end LucenePlusPlus
