import LucenePlusPlus.UTF8Stream

/-!
`UTF8Decoder` with its pointers. `utf8Begin` moves up to `utf8End`, and what is behind `utf8End` is not read: the
decoder that takes octets off a list gives the same result.
-/

namespace LucenePlusPlus.UTF8Decoder
open UTF8Base

namespace Pointers
variable (utf8 : List UInt8)

/-- Moves `utf8Begin`, and may fail. Nothing at all comes out of a read outside `utf8`, whose length is
`utf8End`. -/
abbrev Reading := OptionT (StateT Nat Option)

def readNext : Reading Nat := fun utf8Begin =>
  if utf8Begin = utf8.length then some (some UNICODE_TERMINATOR.toUInt32, utf8Begin)
  else utf8[utf8Begin]?.map fun next => (some next.toNat, utf8Begin + 1)

/-- The next octet, which must be a trail octet. -/
def readTrail : Reading Nat := do
  let next ← readNext utf8
  if next = UNICODE_TERMINATOR.toUInt32 then failure
  else if !isTrail next then failure
  else return next

def getSequence (cp length : Nat) : Reading Nat :=
  let cp := mask8 cp
  if length = 1 then return cp
  else do
    let next ← readTrail utf8
    if length = 2 then return (cp <<< 6 &&& 0x7ff) + (next &&& 0x3f)
    else if length = 3 then
      let cp := (cp <<< 12 &&& 0xffff) + (mask8 next <<< 6 &&& 0xfff)
      let next ← readTrail utf8
      return cp + (next &&& 0x3f)
    else
      let cp := (cp <<< 18 &&& 0x1fffff) + (mask8 next <<< 12 &&& 0x3ffff)
      let next ← readTrail utf8
      let cp := cp + (mask8 next <<< 6 &&& 0xfff)
      let next ← readTrail utf8
      return cp + (next &&& 0x3f)

def isValidNext (cp : Nat) : Reading Nat :=
  let length := sequenceLength cp
  if length < 1 ∨ length > 4 then failure
  else do
    let cp ← getSequence utf8 cp length
    if isValidCodePoint cp && !isOverlongSequence cp length then return cp else failure

/-- The loop from its test on. -/
def utf8to32 (length : Nat) : Nat → List WChar → Nat → StateT Nat Option (Int × List WChar)
  | 0, unicode, _ => return (endOf unicode, unicode)
  | rounds + 1, unicode, next =>
      if next = UNICODE_TERMINATOR.toUInt32 then return (endOf unicode, unicode)
      else do
        match ← (isValidNext utf8 next).run with
        | none => return (0, unicode)
        | some next =>
            let unicode := unicode ++ [WChar.ofUInt32 next]
            if unicode.length ≥ length then return (unicode.length, unicode)
            else
              match ← (readNext utf8).run with
              | none => return (0, unicode)
              | some next => utf8to32 length rounds unicode next

/-- Also gives the array, which has place for `length` characters. -/
def decode (length : Nat) : Option (Int × List WChar) :=
  (readNext utf8 0).bind fun (next, utf8Begin) =>
    next.bind fun next => (utf8to32 utf8 length (utf8.length + 1) [] next utf8Begin).map Prod.fst

variable {utf8} {α β : Type} {utf8Begin : Nat}

theorem toNat_ne_terminator (next : UInt8) : next.toNat ≠ UNICODE_TERMINATOR.toUInt32 := by
  have hlt := next.toNat_lt
  rw [show UNICODE_TERMINATOR.toUInt32 = 0x1ffff from rfl]
  omega

theorem readNext_end : readNext utf8 utf8.length = some (some UNICODE_TERMINATOR.toUInt32, utf8.length) := if_pos rfl

theorem readNext_of_lt (h : utf8Begin < utf8.length) :
    readNext utf8 utf8Begin = some (some utf8[utf8Begin].toNat, utf8Begin + 1) := by
  rw [readNext, if_neg (by omega), List.getElem?_eq_getElem h]
  rfl

theorem exists_readNext (hle : utf8Begin ≤ utf8.length) :
    ∃ next utf8Begin', readNext utf8 utf8Begin = some (some next, utf8Begin') := by
  rcases hle.eq_or_lt with rfl | hlt
  · exact ⟨_, _, readNext_end⟩
  · exact ⟨_, _, readNext_of_lt hlt⟩

variable (utf8) in
/-- The pointer has moved as far as octets have been taken off. -/
def Reads (x : Reading α) (taken : List UInt8 → Option (α × List UInt8)) : Prop :=
  ∀ utf8Begin ≤ utf8.length, ∃ utf8Begin', (utf8Begin ≤ utf8Begin' ∧ utf8Begin' ≤ utf8.length) ∧
    x utf8Begin = some ((taken (utf8.drop utf8Begin)).map Prod.fst, utf8Begin') ∧
      ∀ a rest, taken (utf8.drop utf8Begin) = some (a, rest) → rest = utf8.drop utf8Begin'

theorem reads_pure (a : α) : Reads utf8 (pure a) fun rest => some (a, rest) := by
  intro utf8Begin hle
  refine ⟨utf8Begin, ⟨le_rfl, hle⟩, rfl, fun _ rest heq => ?_⟩
  cases heq
  rfl

theorem reads_failure : Reads utf8 (failure : Reading α) fun _ => none :=
  fun utf8Begin hle => ⟨utf8Begin, ⟨le_rfl, hle⟩, rfl, fun _ _ heq => nomatch heq⟩

/-- What fails fails, and what is read next is read from where the pointer stands. -/
theorem Reads.bind {x : Reading α} {taken : List UInt8 → Option (α × List UInt8)} {y : α → Reading β}
    {next : α × List UInt8 → Option (β × List UInt8)} (h : Reads utf8 x taken)
    (hnext : ∀ a, Reads utf8 (y a) fun rest => next (a, rest)) :
    Reads utf8 (x >>= y) fun octets => taken octets >>= next := by
  intro utf8Begin hle
  obtain ⟨utf8Begin₁, ⟨hge₁, hle₁⟩, hx, hrest⟩ := h utf8Begin hle
  have hbind : ∀ r, x utf8Begin = some (r, utf8Begin₁) →
      (x >>= y) utf8Begin = r.elim (some (none, utf8Begin₁)) fun a => y a utf8Begin₁ := by
    intro r hr
    simp only [Bind.bind, OptionT.bind, OptionT.mk, StateT.bind, hr]
    cases r <;> rfl
  dsimp only
  cases htaken : taken (utf8.drop utf8Begin) with
  | none =>
      rw [htaken] at hx
      exact ⟨utf8Begin₁, ⟨hge₁, hle₁⟩, hbind _ hx, fun _ _ heq => nomatch heq⟩
  | some p =>
      obtain ⟨a, rest⟩ := p
      obtain ⟨utf8Begin₂, ⟨hge₂, hle₂⟩, hy, hrest₂⟩ := hnext a utf8Begin₁ hle₁
      rw [htaken] at hx
      rw [← hrest a rest htaken] at hy hrest₂
      exact ⟨utf8Begin₂, ⟨hge₁.trans hge₂, hle₂⟩, (hbind _ hx).trans hy, hrest₂⟩

theorem reads_readTrail : Reads utf8 (readTrail utf8) UTF8Decoder.readTrail := by
  intro utf8Begin hle
  have hbind : ∀ next utf8Begin₁, readNext utf8 utf8Begin = some (some next, utf8Begin₁) →
      readTrail utf8 utf8Begin =
        some (if next ≠ UNICODE_TERMINATOR.toUInt32 ∧ isTrail next then some next else none, utf8Begin₁) := by
    intro next utf8Begin₁ hnext
    simp only [readTrail, Bind.bind, OptionT.bind, OptionT.mk, StateT.bind, hnext]
    by_cases hterm : next = UNICODE_TERMINATOR.toUInt32
    · simp only [hterm]
      rfl
    · by_cases htrail : isTrail next = true
      · simp [hterm, htrail]
        rfl
      · simp [hterm, htrail]
        rfl
  by_cases hend : utf8Begin = utf8.length
  · subst hend
    rw [hbind _ _ readNext_end, List.drop_length, if_neg (fun h => h.1 rfl)]
    exact ⟨utf8.length, ⟨le_rfl, le_rfl⟩, rfl, fun _ _ heq => nomatch heq⟩
  · have hlt : utf8Begin < utf8.length := by omega
    rw [hbind _ _ (readNext_of_lt hlt), List.drop_eq_getElem_cons hlt, UTF8Decoder.readTrail]
    refine ⟨utf8Begin + 1, ⟨by omega, hlt⟩, ?_, ?_⟩
    · cases htrail : isTrail utf8[utf8Begin].toNat <;> simp [toNat_ne_terminator]
    · intro a rest heq
      split_ifs at heq
      cases heq
      rfl

theorem reads_getSequence (cp length : Nat) :
    Reads utf8 (getSequence utf8 cp length) (UTF8Decoder.getSequence cp length) := by
  unfold getSequence UTF8Decoder.getSequence
  by_cases h₁ : length = 1
  · simp only [h₁, if_true]
    exact reads_pure _
  · simp only [h₁, if_false]
    refine reads_readTrail.bind fun next => ?_
    by_cases h₂ : length = 2
    · simp only [h₂, if_true]
      exact reads_pure _
    · simp only [h₂, if_false]
      by_cases h₃ : length = 3
      · simp only [h₃, if_true]
        exact reads_readTrail.bind fun next => reads_pure _
      · simp only [h₃, if_false]
        refine reads_readTrail.bind fun next => ?_
        dsimp only
        exact reads_readTrail.bind fun next => reads_pure _

theorem reads_isValidNext (cp : Nat) : Reads utf8 (isValidNext utf8 cp) (UTF8Decoder.isValidNext cp) := by
  unfold isValidNext UTF8Decoder.isValidNext
  by_cases hlength : sequenceLength cp < 1 ∨ sequenceLength cp > 4
  · simp only [hlength, if_true]
    exact reads_failure
  · simp only [hlength, if_false]
    refine (reads_getSequence cp _).bind fun cp => ?_
    split
    · exact reads_pure cp
    · exact reads_failure

theorem utf8to32_eq (length : Nat) {rounds : Nat} (unicode : List WChar) (hle : utf8Begin ≤ utf8.length)
    (hrounds : utf8.length - utf8Begin < rounds) {next utf8Begin₁ : Nat}
    (hnext : readNext utf8 utf8Begin = some (some next, utf8Begin₁)) :
    (utf8to32 utf8 length rounds unicode next utf8Begin₁).map Prod.fst =
      some (UTF8Decoder.utf8to32 length (rounds - 1) unicode (utf8.drop utf8Begin)) := by
  induction rounds generalizing unicode utf8Begin next utf8Begin₁ with
  | zero => omega
  | succ rounds ih =>
      rw [Nat.add_sub_cancel]
      by_cases hend : utf8Begin = utf8.length
      · subst hend
        rw [readNext_end] at hnext
        cases hnext
        rw [utf8to32, if_pos rfl, List.drop_length]
        cases rounds <;> rfl
      · have hlt : utf8Begin < utf8.length := by omega
        rw [readNext_of_lt hlt] at hnext
        cases hnext
        obtain ⟨rounds, rfl⟩ : ∃ r, rounds = r + 1 := ⟨rounds - 1, by omega⟩
        obtain ⟨utf8Begin₂, ⟨hge₂, hle₂⟩, hvalid, hrest⟩ := reads_isValidNext utf8[utf8Begin].toNat (utf8Begin + 1) hlt
        rw [utf8to32, if_neg (toNat_ne_terminator _), List.drop_eq_getElem_cons hlt, UTF8Decoder.utf8to32]
        simp only [Bind.bind, StateT.bind, OptionT.run]
        rw [hvalid]
        cases htaken : UTF8Decoder.isValidNext utf8[utf8Begin].toNat (utf8.drop (utf8Begin + 1)) with
        | none => rfl
        | some p =>
            obtain ⟨cp, rest⟩ := p
            dsimp only [Option.map_some, Option.bind_some]
            by_cases hfull : (unicode ++ [WChar.ofUInt32 cp]).length ≥ length
            · rw [if_pos hfull, if_pos hfull]
              rfl
            · obtain ⟨next, utf8Begin₃, hnext⟩ := exists_readNext hle₂
              rw [if_neg hfull, if_neg hfull, hrest cp rest htaken]
              simp only [StateT.bind, hnext]
              exact ih _ hle₂ (by omega) hnext

theorem decode_eq (length : Nat) :
    decode utf8 length = some (UTF8Decoder.utf8to32 length utf8.length [] utf8) := by
  obtain ⟨next, utf8Begin, hnext⟩ := exists_readNext (Nat.zero_le utf8.length)
  rw [decode, hnext]
  exact utf8to32_eq length [] (Nat.zero_le _) (by omega) hnext

end Pointers

end LucenePlusPlus.UTF8Decoder
