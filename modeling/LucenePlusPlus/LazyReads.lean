import LucenePlusPlus.LazyLoading

/-!
What a lazily loaded field returns later. It stands for the same bytes whatever is read of other fields, and keeps what
it has read, in an array that no other field reads into.
-/

namespace LucenePlusPlus.StoredFields
open Decoders IndexOutput IndexInput

namespace LazyField
variable {r : FieldsReader} {f : LazyField} {bytes : List UInt8} {binary : Bool}

theorem readString_eq (r : FieldsReader) (f : LazyField) :
    f.readString r = { f with fieldsData := (f.readString r).fieldsData } := by
  rw [readString]
  split
  · rfl
  · split
    · split
      · rfl
      · split <;> rfl
    · rfl

theorem StandsFor.readString (h : f.StandsFor r bytes binary) : (f.readString r).StandsFor r bytes binary := by
  rw [readString_eq]
  exact ⟨h.isBinary, h.toRead, h.bytesAt⟩

theorem eq_of_readString {array : Option Nat} (h : (f.readString r).fieldsData = .binary array) :
    f.fieldsData = .binary array := by
  rw [LazyField.readString] at h
  split at h
  · exact h
  · split at h
    · split at h
      · cases h
      · split at h <;> cases h
    · exact h

theorem StandsFor.readString_of_null (h : f.StandsFor r bytes false) (hnull : f.fieldsData = .null) :
    (f.readString r).fieldsData = .text (StringUtils.toUnicode 0 bytes) := by
  have htoRead := h.toRead
  rw [LazyField.readString, h.isBinary, hnull]
  simp only [Bool.false_eq_true, if_false]
  split
  · have hnil : bytes = [] := List.eq_nil_of_length_eq_zero (by omega)
    rw [hnil]
    rfl
  · rw [h.bytesAt]

theorem bufferFor_spec (arrays : List (List UInt8)) (toRead : Nat) (result : Option Nat) :
    arrays <+: (bufferFor arrays toRead result).2 ∧
      (bufferFor arrays toRead result).1 < (bufferFor arrays toRead result).2.length ∧
      ((bufferFor arrays toRead result).1 = arrays.length ∨
        result = some (bufferFor arrays toRead result).1 ∧ (bufferFor arrays toRead result).1 < arrays.length) := by
  have hnew : arrays <+: arrays ++ [List.replicate toRead 0] ∧
      arrays.length < (arrays ++ [List.replicate toRead (0 : UInt8)]).length := by
    refine ⟨List.prefix_append _ _, ?_⟩
    rw [List.length_append, List.length_singleton]
    omega
  cases result with
  | none => exact ⟨hnew.1, hnew.2, .inl rfl⟩
  | some number =>
      cases harray : arrays[number]? with
      | none =>
          have heq : bufferFor arrays toRead (some number) = (arrays.length, arrays ++ [List.replicate toRead 0]) := by
            simp only [bufferFor, harray]
          rw [heq]
          exact ⟨hnew.1, hnew.2, .inl rfl⟩
      | some array =>
          have hlt := (List.getElem?_eq_some_iff.mp harray).1
          have heq : bufferFor arrays toRead (some number) = if array.length < toRead then
              (arrays.length, arrays ++ [List.replicate toRead 0]) else (number, arrays) := by
            simp only [bufferFor, harray]
          rw [heq]
          split
          · exact ⟨hnew.1, hnew.2, .inl rfl⟩
          · exact ⟨List.prefix_refl _, hlt, .inr ⟨rfl, hlt⟩⟩

/-- The array that the bytes have been read into is new, or the caller's. -/
structure ReadsInto (arrays arrays' : List (List UInt8)) (result : Option Nat) (bytes : List UInt8) (b : Nat) : Prop where
  new_or_result : b = arrays.length ∨ result = some b ∧ b < arrays.length
  length_le : arrays.length ≤ arrays'.length
  lt_length : b < arrays'.length
  bytes_eq : ∃ array, arrays'[b]? = some array ∧ array.take bytes.length = bytes
  others : ∀ a, a ≠ b → a < arrays.length → arrays'[a]? = arrays[a]?

theorem readsInto_bufferFor (arrays : List (List UInt8)) (toRead : Nat) (result : Option Nat) (bytes : List UInt8) :
    ReadsInto arrays ((bufferFor arrays toRead result).2.set (bufferFor arrays toRead result).1
      (bytes ++ ((bufferFor arrays toRead result).2.getD (bufferFor arrays toRead result).1 []).drop bytes.length))
        result bytes (bufferFor arrays toRead result).1 := by
  obtain ⟨hbegin, hlt, hnew⟩ := bufferFor_spec arrays toRead result
  refine ⟨hnew, ?_, ?_, ⟨_, List.getElem?_set_self hlt, List.take_left⟩, ?_⟩
  · rw [List.length_set]
    exact hbegin.length_le
  · rw [List.length_set]
    exact hlt
  · intro a hne ha
    obtain ⟨more, heq⟩ := hbegin
    rw [List.getElem?_set_ne (Ne.symm hne), ← heq, List.getElem?_append_left ha]

/-- Nothing is read, or there is nothing to be read, or the bytes are in an array. -/
theorem readBinary_cases (r : FieldsReader) (f : LazyField) (arrays : List (List UInt8)) (result : Option Nat) :
    f.readBinary r arrays result = (f, arrays) ∨
    (f.fieldsData = .null ∧ ∃ arrays', arrays <+: arrays' ∧ f.readBinary r arrays result =
      ({ f with fieldsData := .binary none, binaryLength := 0 }, arrays')) ∨
    (f.fieldsData = .null ∧ ∃ b bytes arrays', r.bytesAt f.pointer f.toRead = some bytes ∧
      f.readBinary r arrays result = ({ f with fieldsData := .binary (some b), binaryLength := f.toRead }, arrays') ∧
        ReadsInto arrays arrays' result bytes b) := by
  rw [LazyField.readBinary]
  split
  · exact .inl rfl
  · split
    · rename_i hnull
      refine .inr ?_
      split
      · exact .inl ⟨hnull, arrays, List.prefix_refl _, rfl⟩
      · cases hbytes : r.bytesAt f.pointer f.toRead with
        | none => exact .inl ⟨hnull, _, (bufferFor_spec arrays f.toRead.toNat result).1, rfl⟩
        | some bytes => exact .inr ⟨hnull, _, bytes, _, rfl, rfl, readsInto_bufferFor arrays f.toRead.toNat result bytes⟩
    · exact .inl rfl

theorem StandsFor.readBinary_of_null (h : f.StandsFor r bytes true) (hnull : f.fieldsData = .null) (hne : bytes ≠ [])
    (arrays : List (List UInt8)) (result : Option Nat) :
    ∃ b arrays', f.readBinary r arrays result =
      ({ f with fieldsData := .binary (some b), binaryLength := f.toRead }, arrays') ∧
        ReadsInto arrays arrays' result bytes b := by
  have htoRead := h.toRead
  have hpos := List.length_pos_of_ne_nil hne
  rw [LazyField.readBinary, h.isBinary, hnull]
  simp only [Bool.not_true, Bool.false_eq_true, if_false]
  rw [if_neg (by omega), h.bytesAt]
  exact ⟨_, _, rfl, readsInto_bufferFor arrays _ result bytes⟩

end LazyField

namespace LazyState
variable {wide : ∀ w, UInt8 → Nat → BitVec w} {r : FieldsReader} {s : LazyState} {bytes : List UInt8} {binary : Bool}
  {i : Nat}

def start : LazyState := ⟨false, [], []⟩

/-- After any operations. -/
def Reachable (wide : ∀ w, UInt8 → Nat → BitVec w) (r : FieldsReader) : LazyState → Prop :=
  Relation.ReflTransGen (fun s s' => ∃ operation, s' = s.step wide r operation) start

/-- No field but `i` has read into the array. -/
def Unshared (s : LazyState) (i a : Nat) : Prop :=
  ∀ (j : Nat) (f : LazyField), j ≠ i → s.lazyFields[j]? = some f → f.fieldsData ≠ .binary (some a)

/-- The reader stays open, and no array is given to two fields. -/
def Allowed (s : LazyState) : Operation → Prop
  | .close => False
  | .getBinaryValue i (some a) => s.Unshared i a
  | _ => True

def Later (wide : ∀ w, UInt8 → Nat → BitVec w) (r : FieldsReader) : LazyState → LazyState → Prop :=
  Relation.ReflTransGen fun s s' => ∃ operation, s.Allowed operation ∧ s' = s.step wide r operation

/-- The arrays that fields have read into are there. -/
def Valid (s : LazyState) : Prop :=
  ∀ (i : Nat) (f : LazyField) (a : Nat), s.lazyFields[i]? = some f → f.fieldsData = .binary (some a) →
    a < s.arrays.length

theorem fieldsData_of_addFieldLazy {fi : FieldInfo} {binary : Bool} {f : LazyField} {rest rest' : List UInt8}
    (h : FieldsReader.addFieldLazy wide r fi binary rest = .ok (f, rest')) : f.fieldsData = .null := by
  obtain ⟨toRead, rest₁, -, h⟩ := ok_of_bind h
  obtain ⟨pointer, rest₂, -, h⟩ := ok_of_bind h
  obtain ⟨-, rest₃, -, h⟩ := ok_of_bind h
  cases h
  rfl

theorem fieldsData_of_loadAs {fi : FieldInfo} {binary tokenize last : Bool} {accept : FieldSelectorResult}
    {f : LazyField} {rest rest' : List UInt8}
    (h : FieldsReader.loadAs wide r fi binary tokenize accept rest = .ok ((last, some (.lazy f)), rest')) :
    f.fieldsData = .null := by
  cases accept with
  | load | loadAndBreak =>
      obtain ⟨field, rest₁, -, h⟩ := ok_of_bind h
      cases field <;> cases h
  | lazyLoad =>
      obtain ⟨field, rest₁, hlazy, h⟩ := ok_of_bind h
      cases h
      exact fieldsData_of_addFieldLazy hlazy
  | size =>
      obtain ⟨⟨size, field⟩, rest₁, -, h⟩ := ok_of_bind h
      obtain ⟨-, rest₂, -, h⟩ := ok_of_bind h
      cases h
  | sizeAndBreak =>
      obtain ⟨⟨size, field⟩, rest₁, -, h⟩ := ok_of_bind h
      cases h
  | null | noLoad =>
      obtain ⟨toRead, rest₁, -, h⟩ := ok_of_bind h
      obtain ⟨-, rest₂, -, h⟩ := ok_of_bind h
      cases h

theorem fieldsData_of_loadField {fieldSelector : Option FieldSelector} {last : Bool} {f : LazyField}
    {rest rest' : List UInt8}
    (h : FieldsReader.loadField wide r fieldSelector rest = .ok ((last, some (.lazy f)), rest')) :
    f.fieldsData = .null := by
  obtain ⟨fieldNumber, rest₁, -, h⟩ := ok_of_bind h
  generalize (if 0 ≤ fieldNumber then r.fieldInfos[fieldNumber.toNat]? else none) = fi at h
  cases fi with
  | none => cases h
  | some fi =>
      obtain ⟨bits, rest₂, -, h⟩ := ok_of_bind h
      exact fieldsData_of_loadAs h

theorem mem_lazies {f : LazyField} {fields : List (Option (Loaded LazyField))} :
    f ∈ lazies fields ↔ some (.lazy f) ∈ fields := by
  induction fields with
  | nil => simp [lazies]
  | cons loaded fields ih =>
      rcases loaded with _ | field | g <;> simp [lazies, ih]

theorem fieldsData_of_loadFields {fieldSelector : Option FieldSelector} {numFields : Nat} {f : LazyField}
    {fields : List (Option (Loaded LazyField))} {rest rest' : List UInt8}
    (h : FieldsReader.loadFields wide r fieldSelector numFields rest = .ok (fields, rest'))
    (hmem : some (.lazy f) ∈ fields) : f.fieldsData = .null := by
  induction numFields generalizing fields rest with
  | zero =>
      cases h
      cases hmem
  | succ numFields ih =>
      obtain ⟨⟨last, loaded⟩, rest₁, hloaded, h⟩ := ok_of_bind h
      cases last with
      | true =>
          cases h
          obtain rfl := List.mem_singleton.mp hmem
          exact fieldsData_of_loadField hloaded
      | false =>
          obtain ⟨more, rest₂, hmore, h⟩ := ok_of_bind h
          cases h
          rcases List.mem_cons.mp hmem with rfl | hmem
          · exact fieldsData_of_loadField hloaded
          · exact ih hmore hmem

theorem ok_of_except_bind {ε α β : Type} {x : Except ε α} {f : α → Except ε β} {b : β} (h : (x >>= f) = .ok b) :
    ∃ a, x = .ok a ∧ f a = .ok b := by
  cases x with
  | error e => cases h
  | ok a => exact ⟨a, rfl, h⟩

theorem fieldsData_of_load {n : Nat} {fieldSelector : Option FieldSelector} {f : LazyField}
    {fields : List (Option (Loaded LazyField))} (h : r.load wide n fieldSelector = .ok fields) (hmem : f ∈ lazies fields) :
    f.fieldsData = .null := by
  obtain ⟨fdx, -, h⟩ := ok_of_except_bind h
  obtain ⟨⟨position, fdx'⟩, -, h⟩ := ok_of_except_bind h
  obtain ⟨fdt, -, h⟩ := ok_of_except_bind h
  obtain ⟨⟨fields', rest⟩, hfields, h⟩ := ok_of_except_bind h
  cases h
  obtain ⟨numFields, rest₁, -, hfields⟩ := ok_of_bind hfields
  exact fieldsData_of_loadFields hfields (mem_lazies.mp hmem)

theorem step_document (n : Nat) (fieldSelector : Option FieldSelector) :
    ∃ fields, (s.step wide r (.document n fieldSelector)) = { s with lazyFields := s.lazyFields ++ fields } ∧
      ∀ f ∈ fields, f.fieldsData = .null := by
  rw [step]
  cases h : s.document wide r n fieldSelector with
  | error e => exact ⟨[], by rw [List.append_nil], fun f hmem => absurd hmem List.not_mem_nil⟩
  | ok p =>
      rw [document] at h
      split at h
      · cases h
      · obtain ⟨fields, hload, h⟩ := ok_of_except_bind h
        cases h
        exact ⟨lazies fields, rfl, fun f hmem => fieldsData_of_load hload hmem⟩

theorem modifyString_cases (s : LazyState) (r : FieldsReader) (i : Nat) : s.modifyString r i = s ∨
    ∃ f, s.lazyFields[i]? = some f ∧
      s.modifyString r i = { s with lazyFields := s.lazyFields.set i (f.readString r) } := by
  rw [modifyString]
  split
  · exact .inl rfl
  · cases h : s.lazyFields[i]? with
    | none => exact .inl rfl
    | some f => exact .inr ⟨f, rfl, rfl⟩

theorem modifyBinary_cases (s : LazyState) (r : FieldsReader) (i : Nat) (result : Option Nat) :
    s.modifyBinary r i result = s ∨
    ∃ f, s.lazyFields[i]? = some f ∧ s.modifyBinary r i result =
      { s with lazyFields := s.lazyFields.set i (f.readBinary r s.arrays result).1,
               arrays := (f.readBinary r s.arrays result).2 } := by
  rw [modifyBinary]
  split
  · exact .inl rfl
  · cases h : s.lazyFields[i]? with
    | none => exact .inl rfl
    | some f => exact .inr ⟨f, rfl, rfl⟩

theorem getElem?_set_cases {α : Type} {l : List α} {i j : Nat} {a b : α} (h : (l.set i a)[j]? = some b) :
    j = i ∧ b = a ∨ j ≠ i ∧ l[j]? = some b := by
  rcases eq_or_ne j i with rfl | hne
  · have hlt := (List.getElem?_eq_some_iff.mp h).1
    rw [List.length_set] at hlt
    rw [List.getElem?_set_self hlt] at h
    exact .inl ⟨rfl, (Option.some.inj h).symm⟩
  · rw [List.getElem?_set_ne hne.symm] at h
    exact .inr ⟨hne, h⟩

theorem Valid.step (h : s.Valid) (operation : Operation) : (s.step wide r operation).Valid := by
  cases operation with
  | document n fieldSelector =>
      obtain ⟨fields, heq, hnull⟩ := @step_document wide r s n fieldSelector
      rw [heq]
      intro i f a hget hdata
      rcases Nat.lt_or_ge i s.lazyFields.length with hlt | hge
      · rw [List.getElem?_append_left hlt] at hget
        exact h i f a hget hdata
      · rw [List.getElem?_append_right hge] at hget
        rw [hnull f (List.mem_of_getElem? hget)] at hdata
        cases hdata
  | stringValue i =>
      rcases modifyString_cases s r i with heq | ⟨f, hf, heq⟩
      · rw [LazyState.step, heq]
        exact h
      · rw [LazyState.step, heq]
        intro j g a hget hdata
        rcases getElem?_set_cases hget with ⟨rfl, rfl⟩ | ⟨-, hget⟩
        · exact h j f a hf (LazyField.eq_of_readString hdata)
        · exact h j g a hget hdata
  | getBinaryValue i result =>
      rcases modifyBinary_cases s r i result with heq | ⟨f, hf, heq⟩
      · rw [LazyState.step, heq]
        exact h
      · rw [LazyState.step, heq]
        intro j g a hget hdata
        rcases f.readBinary_cases r s.arrays result with hread | ⟨-, arrays', hbegin, hread⟩ |
          ⟨-, b, bytes, arrays', -, hread, hinto⟩
        · rw [hread] at hget ⊢
          rcases getElem?_set_cases hget with ⟨rfl, rfl⟩ | ⟨-, hget⟩
          · exact h j g a hf hdata
          · exact h j g a hget hdata
        · rw [hread] at hget ⊢
          rcases getElem?_set_cases hget with ⟨rfl, rfl⟩ | ⟨-, hget⟩
          · cases hdata
          · exact lt_of_lt_of_le (h j g a hget hdata) hbegin.length_le
        · rw [hread] at hget ⊢
          rcases getElem?_set_cases hget with ⟨rfl, rfl⟩ | ⟨-, hget⟩
          · cases hdata
            exact hinto.lt_length
          · exact lt_of_lt_of_le (h j g a hget hdata) hinto.length_le
  | newArray array =>
      intro i f a hget hdata
      change a < (s.arrays ++ [array]).length
      rw [List.length_append]
      exact Nat.lt_add_right _ (h i f a hget hdata)
  | close => exact h

theorem Reachable.valid (h : Reachable wide r s) : s.Valid := by
  induction h with
  | refl =>
      intro i f a hget
      cases hget
  | tail _ hstep ih =>
      obtain ⟨operation, rfl⟩ := hstep
      exact ih.step operation

/-! ### A field through a run -/

/-- What the field has read, if anything. -/
inductive Keeps (s : LazyState) (i : Nat) (bytes : List UInt8) (f : LazyField) : Prop where
  | unread (hnull : f.fieldsData = .null)
  | text (hbinary : f.isBinary = false) (htext : f.fieldsData = .text (StringUtils.toUnicode 0 bytes))
  | binary (a : Nat) (array : List UInt8) (hbinary : f.isBinary = true) (harray : f.fieldsData = .binary (some a))
      (hlength : f.binaryLength = bytes.length) (hget : s.arrays[a]? = some array)
      (htake : array.take bytes.length = bytes) (hunshared : s.Unshared i a)

/-- Field `i` stands for the bytes, and has read them if it has read any. -/
def Tracked (r : FieldsReader) (bytes : List UInt8) (binary : Bool) (s : LazyState) (i : Nat) : Prop :=
  ∃ f, s.lazyFields[i]? = some f ∧ f.StandsFor r bytes binary ∧ s.Keeps i bytes f

theorem Keeps.of_same {s s' : LazyState} {f : LazyField} (h : s.Keeps i bytes f)
    (harrays : ∀ a, f.fieldsData = .binary (some a) → s'.arrays[a]? = s.arrays[a]?)
    (hothers : ∀ a, f.fieldsData = .binary (some a) → s.Unshared i a → s'.Unshared i a) : s'.Keeps i bytes f := by
  cases h with
  | unread hnull => exact .unread hnull
  | text hbinary htext => exact .text hbinary htext
  | binary a array hbinary harray hlength hget htake hunshared =>
      exact .binary a array hbinary harray hlength (by rw [harrays a harray, hget]) htake (hothers a harray hunshared)

theorem Tracked.step_document (h : Tracked r bytes binary s i) (n : Nat) (fieldSelector : Option FieldSelector) :
    Tracked r bytes binary (s.step wide r (.document n fieldSelector)) i := by
  obtain ⟨f, hf, hstands, hkeeps⟩ := h
  obtain ⟨fields, heq, hnull⟩ := @LazyState.step_document wide r s n fieldSelector
  have hlt := (List.getElem?_eq_some_iff.mp hf).1
  rw [heq]
  refine ⟨f, by rw [List.getElem?_append_left hlt, hf], hstands, hkeeps.of_same (fun a _ => rfl) ?_⟩
  intro a _ hunshared j g hne hget hdata
  rcases Nat.lt_or_ge j s.lazyFields.length with hj | hj
  · rw [List.getElem?_append_left hj] at hget
    exact hunshared j g hne hget hdata
  · rw [List.getElem?_append_right hj] at hget
    rw [hnull g (List.mem_of_getElem? hget)] at hdata
    cases hdata

theorem Tracked.modifyString_self (h : Tracked r bytes binary s i) : Tracked r bytes binary (s.modifyString r i) i := by
  obtain ⟨f, hf, hstands, hkeeps⟩ := h
  rcases modifyString_cases s r i with heq | ⟨f', hf', heq⟩
  · rw [heq]
    exact ⟨f, hf, hstands, hkeeps⟩
  · obtain rfl := Option.some.inj (hf.symm.trans hf')
    have hlt := (List.getElem?_eq_some_iff.mp hf).1
    rw [heq]
    refine ⟨f.readString r, List.getElem?_set_self hlt, hstands.readString, ?_⟩
    by_cases hread : f.isBinary = true ∨ f.fieldsData ≠ .null
    · -- nothing is read again
      have hsame : f.readString r = f := by
        rw [LazyField.readString]
        rcases hread with hbinary | hdata
        · rw [if_pos hbinary]
        · split
          · rfl
          · split
            · rename_i hnull
              exact absurd hnull hdata
            · rfl
      rw [hsame]
      refine hkeeps.of_same (fun a _ => rfl) fun a _ hunshared j g hne hget => ?_
      rcases getElem?_set_cases hget with ⟨rfl, -⟩ | ⟨-, hget⟩
      · exact absurd rfl hne
      · exact hunshared j g hne hget
    · obtain ⟨hbinary, hnull⟩ := not_or.mp hread
      have hfalse : f.isBinary = false := Bool.eq_false_iff.mpr hbinary
      obtain rfl := hstands.isBinary.symm.trans hfalse
      refine .text ?_ (hstands.readString_of_null (not_not.mp hnull))
      rw [LazyField.readString_eq]
      exact hfalse

theorem Tracked.modifyString_other (h : Tracked r bytes binary s i) {j : Nat} (hne : j ≠ i) :
    Tracked r bytes binary (s.modifyString r j) i := by
  obtain ⟨f, hf, hstands, hkeeps⟩ := h
  rcases modifyString_cases s r j with heq | ⟨g, hg, heq⟩
  · rw [heq]
    exact ⟨f, hf, hstands, hkeeps⟩
  · rw [heq]
    refine ⟨f, by rw [List.getElem?_set_ne hne, hf], hstands, hkeeps.of_same (fun a _ => rfl) ?_⟩
    intro a _ hunshared k g' hk hget hdata
    rcases getElem?_set_cases hget with ⟨rfl, rfl⟩ | ⟨-, hget⟩
    · exact hunshared k g hk hg (LazyField.eq_of_readString hdata)
    · exact hunshared k g' hk hget hdata

theorem Tracked.modifyBinary_self (h : Tracked r bytes binary s i) (hvalid : s.Valid)
    (hne : binary = true → bytes ≠ []) {result : Option Nat} (hresult : ∀ a, result = some a → s.Unshared i a) :
    Tracked r bytes binary (s.modifyBinary r i result) i := by
  obtain ⟨f, hf, hstands, hkeeps⟩ := h
  rcases modifyBinary_cases s r i result with heq | ⟨f', hf', heq⟩
  · rw [heq]
    exact ⟨f, hf, hstands, hkeeps⟩
  · obtain rfl := Option.some.inj (hf.symm.trans hf')
    have hlt := (List.getElem?_eq_some_iff.mp hf).1
    rw [heq]
    by_cases hread : f.isBinary = false ∨ f.fieldsData ≠ .null
    · -- nothing is read again
      have hsame : f.readBinary r s.arrays result = (f, s.arrays) := by
        rw [LazyField.readBinary]
        rcases hread with hbinary | hdata
        · rw [hbinary]
          rfl
        · split
          · rfl
          · split
            · rename_i hnull
              exact absurd hnull hdata
            · rfl
      rw [hsame]
      refine ⟨f, List.getElem?_set_self hlt, hstands, hkeeps.of_same (fun a _ => rfl) ?_⟩
      intro a _ hunshared j g hj hget
      rcases getElem?_set_cases hget with ⟨rfl, -⟩ | ⟨-, hget⟩
      · exact absurd rfl hj
      · exact hunshared j g hj hget
    · obtain ⟨hbinary, hnull⟩ := not_or.mp hread
      have htrue : f.isBinary = true := Bool.eq_true_of_not_eq_false hbinary
      obtain rfl := hstands.isBinary.symm.trans htrue
      obtain ⟨b, arrays', hreads, hinto⟩ :=
        hstands.readBinary_of_null (not_not.mp hnull) (hne rfl) s.arrays result
      obtain ⟨array, harray, htake⟩ := hinto.bytes_eq
      rw [hreads]
      refine ⟨_, List.getElem?_set_self hlt, ⟨htrue, hstands.toRead, hstands.bytesAt⟩, ?_⟩
      refine .binary b array htrue rfl hstands.toRead harray htake fun j g hj hget hdata => ?_
      rcases getElem?_set_cases hget with ⟨rfl, -⟩ | ⟨-, hother⟩
      · exact absurd rfl hj
      · rcases hinto.new_or_result with rfl | ⟨hres, -⟩
        · exact absurd (hvalid j g _ hother hdata) (lt_irrefl _)
        · exact hresult b hres j g hj hother hdata

theorem Tracked.modifyBinary_other (h : Tracked r bytes binary s i) (hvalid : s.Valid) {j : Nat} (hne : j ≠ i)
    {result : Option Nat} (hresult : ∀ a, result = some a → s.Unshared j a) :
    Tracked r bytes binary (s.modifyBinary r j result) i := by
  obtain ⟨f, hf, hstands, hkeeps⟩ := h
  rcases modifyBinary_cases s r j result with heq | ⟨g, hg, heq⟩
  · rw [heq]
    exact ⟨f, hf, hstands, hkeeps⟩
  · rw [heq]
    -- the array of field `i` is not the one that is read into
    have harrays : ∀ a, f.fieldsData = .binary (some a) →
        (g.readBinary r s.arrays result).2[a]? = s.arrays[a]? ∧
          (g.fieldsData ≠ .binary (some a) → (g.readBinary r s.arrays result).1.fieldsData ≠ .binary (some a)) := by
      intro a ha
      have halt := hvalid i f a hf ha
      rcases g.readBinary_cases r s.arrays result with hread | ⟨-, arrays', ⟨more, rfl⟩, hread⟩ |
        ⟨-, b, read, arrays', -, hread, hinto⟩
      · rw [hread]
        exact ⟨rfl, id⟩
      · rw [hread]
        exact ⟨List.getElem?_append_left halt, fun _ => by simp⟩
      · have hab : a ≠ b := by
          rintro rfl
          rcases hinto.new_or_result with rfl | ⟨hres, -⟩
          · exact lt_irrefl _ halt
          · exact hresult a hres i f hne.symm hf ha
        rw [hread]
        refine ⟨hinto.others a hab halt, fun _ hdata => ?_⟩
        cases hdata
        exact hab rfl
    refine ⟨f, by rw [List.getElem?_set_ne hne, hf], hstands, hkeeps.of_same (fun a ha => (harrays a ha).1) ?_⟩
    intro a ha hunshared k g' hk hget
    rcases getElem?_set_cases hget with ⟨rfl, rfl⟩ | ⟨-, hget⟩
    · exact (harrays a ha).2 (hunshared k g hk hg)
    · exact hunshared k g' hk hget

theorem Tracked.step (h : Tracked r bytes binary s i) (hvalid : s.Valid) (hne : binary = true → bytes ≠ [])
    {operation : Operation} (hallowed : s.Allowed operation) :
    Tracked r bytes binary (s.step wide r operation) i := by
  cases operation with
  | document n fieldSelector => exact h.step_document n fieldSelector
  | stringValue j =>
      rcases eq_or_ne j i with rfl | hj
      · exact h.modifyString_self
      · exact h.modifyString_other hj
  | getBinaryValue j result =>
      have hresult : ∀ a, result = some a → s.Unshared j a := by
        rintro a rfl
        exact hallowed
      rcases eq_or_ne j i with rfl | hj
      · exact h.modifyBinary_self hvalid hne hresult
      · exact h.modifyBinary_other hvalid hj hresult
  | newArray array =>
      obtain ⟨f, hf, hstands, hkeeps⟩ := h
      refine ⟨f, hf, hstands, hkeeps.of_same (fun a ha => ?_) fun a _ hunshared => hunshared⟩
      exact List.getElem?_append_left (hvalid i f a hf ha)
  | close => exact hallowed.elim

theorem closed_step {operation : Operation} (hallowed : s.Allowed operation) :
    (s.step wide r operation).closed = s.closed := by
  cases operation with
  | document n fieldSelector =>
      obtain ⟨fields, heq, -⟩ := @LazyState.step_document wide r s n fieldSelector
      rw [heq]
  | stringValue j =>
      rcases modifyString_cases s r j with heq | ⟨f, -, heq⟩ <;> rw [LazyState.step, heq]
  | getBinaryValue j result =>
      rcases modifyBinary_cases s r j result with heq | ⟨f, -, heq⟩ <;> rw [LazyState.step, heq]
  | newArray array => rfl
  | close => exact hallowed.elim

theorem Tracked.later {s' : LazyState} (h : Tracked r bytes binary s i) (hvalid : s.Valid) (hopen : s.closed = false)
    (hne : binary = true → bytes ≠ []) (hlater : Later wide r s s') :
    Tracked r bytes binary s' i ∧ s'.Valid ∧ s'.closed = false := by
  induction hlater with
  | refl => exact ⟨h, hvalid, hopen⟩
  | tail _ hstep ih =>
      obtain ⟨operation, hallowed, rfl⟩ := hstep
      obtain ⟨htracked, hvalid', hopen'⟩ := ih
      exact ⟨htracked.step hvalid' hne hallowed, hvalid'.step operation, (closed_step hallowed).trans hopen'⟩

theorem stringValue_of_tracked (h : Tracked r bytes binary s i) (hopen : s.closed = false) :
    s.stringValue r i = if binary then [] else StringUtils.toUnicode 0 bytes := by
  obtain ⟨f, hf, hstands, hkeeps⟩ := h
  have hlt := (List.getElem?_eq_some_iff.mp hf).1
  have hmodify : s.modifyString r i = { s with lazyFields := s.lazyFields.set i (f.readString r) } := by
    rw [modifyString, hopen, hf]
    rfl
  have hget : (s.modifyString r i).lazyFields[i]? = some (f.readString r) := by
    rw [hmodify]
    exact List.getElem?_set_self hlt
  rw [stringValue, hopen, hget]
  simp only [Bool.false_eq_true, if_false, hstands.readString.isBinary]
  cases binary with
  | true => rfl
  | false =>
      simp only [Bool.false_eq_true, if_false]
      cases hkeeps with
      | unread hnull => rw [hstands.readString_of_null hnull]
      | text hbinary htext =>
          have hsame : f.readString r = f := by
            rw [LazyField.readString, htext]
            split <;> rfl
          rw [hsame, htext]
      | binary a array hbinary => exact absurd (hstands.isBinary.symm.trans hbinary) Bool.false_ne_true

theorem exists_read_of_tracked (h : Tracked r bytes true s i) (hopen : s.closed = false) (hne : bytes ≠ [])
    (result : Option Nat) :
    ∃ f a array, (s.modifyBinary r i result).lazyFields[i]? = some f ∧ f.isBinary = true ∧
      f.fieldsData = .binary (some a) ∧ f.binaryLength = bytes.length ∧
        (s.modifyBinary r i result).arrays[a]? = some array ∧ array.take bytes.length = bytes := by
  obtain ⟨f, hf, hstands, hkeeps⟩ := h
  have hlt := (List.getElem?_eq_some_iff.mp hf).1
  have hmodify : s.modifyBinary r i result =
      { s with lazyFields := s.lazyFields.set i (f.readBinary r s.arrays result).1,
               arrays := (f.readBinary r s.arrays result).2 } := by
    rw [modifyBinary, hopen, hf]
    rfl
  rw [hmodify]
  cases hkeeps with
  | unread hnull =>
      obtain ⟨b, arrays', hreads, hinto⟩ := hstands.readBinary_of_null hnull hne s.arrays result
      obtain ⟨array, harray, htake⟩ := hinto.bytes_eq
      rw [hreads]
      exact ⟨_, b, array, List.getElem?_set_self hlt, hstands.isBinary, rfl, hstands.toRead, harray, htake⟩
  | text hbinary => exact absurd (hstands.isBinary.symm.trans hbinary) (Bool.false_ne_true ·.symm)
  | binary a array hbinary harray hlength hget htake =>
      have hsame : f.readBinary r s.arrays result = (f, s.arrays) := by
        rw [LazyField.readBinary, harray]
        split <;> rfl
      rw [hsame]
      exact ⟨f, a, array, List.getElem?_set_self hlt, hbinary, harray, hlength, hget, htake⟩

theorem isBinary_modifyBinary {f : LazyField} (hf : s.lazyFields[i]? = some f) (result : Option Nat) :
    ∃ f', (s.modifyBinary r i result).lazyFields[i]? = some f' ∧ f'.isBinary = f.isBinary := by
  have hlt := (List.getElem?_eq_some_iff.mp hf).1
  rcases modifyBinary_cases s r i result with heq | ⟨f', hf', heq⟩
  · rw [heq]
    exact ⟨f, hf, rfl⟩
  · obtain rfl := Option.some.inj (hf.symm.trans hf')
    rw [heq]
    refine ⟨_, List.getElem?_set_self hlt, ?_⟩
    rcases f.readBinary_cases r s.arrays result with hread | ⟨-, arrays', -, hread⟩ | ⟨-, b, read, arrays', -, hread, -⟩ <;>
      rw [hread]

theorem binaryBytes_of_tracked (h : Tracked r bytes binary s i) (hopen : s.closed = false)
    (hne : binary = true → bytes ≠ []) (result : Option Nat) :
    s.binaryBytes r i result = if binary then some bytes else none := by
  cases binary with
  | false =>
      obtain ⟨f, hf, hstands, -⟩ := h
      obtain ⟨f', hf', hsame⟩ := @isBinary_modifyBinary r s i f hf result
      have hnone : s.getBinaryValue r i result = none := by
        rw [getBinaryValue, hopen, hf']
        simp only [Bool.false_eq_true, if_false, hsame, hstands.isBinary, Bool.not_false, if_true]
      rw [binaryBytes, hnone]
      rfl
  | true =>
      obtain ⟨f, a, array, hf, hbinary, hdata, hlength, harray, htake⟩ :=
        exists_read_of_tracked h hopen (hne rfl) result
      have hsome : s.getBinaryValue r i result = some a := by
        rw [getBinaryValue, hopen, hf]
        simp only [Bool.false_eq_true, if_false, hbinary, Bool.not_true, hdata]
      rw [binaryBytes, hsome, if_pos rfl]
      calc ((some a).bind fun number => (s.modifyBinary r i result).arrays[number]?.bind fun array =>
            (s.modifyBinary r i result).lazyFields[i]?.bind fun f => some (array.take f.binaryLength.toNat))
          = some (array.take f.binaryLength.toNat) := by rw [Option.bind_some, harray, Option.bind_some, hf, Option.bind_some]
        _ = some bytes := by rw [hlength, Int.toNat_natCast, htake]

theorem length_numbered (start : Nat) (fields : List (Option (Loaded LazyField))) :
    (numbered start fields).length = fields.length := by
  induction fields generalizing start with
  | nil => rfl
  | cons loaded fields ih =>
      rcases loaded with _ | field | f <;> rw [numbered, List.length_cons, ih, List.length_cons]

/-- The number of a lazily loaded field. -/
def Numbers (start : Nat) (lazyFields : List LazyField) : Option (Loaded LazyField) → Option (Loaded Nat) → Prop
  | none, loaded => loaded = none
  | some (.field field), loaded => loaded = some (.field field)
  | some (.lazy f), loaded => ∃ i, loaded = some (.lazy i) ∧ start ≤ i ∧ lazyFields[i - start]? = some f

theorem numbers_numbered (start : Nat) {fields : List (Option (Loaded LazyField))} {j : Nat}
    {loaded : Option (Loaded LazyField)} (h : fields[j]? = some loaded) :
    ∃ loaded', (numbered start fields)[j]? = some loaded' ∧ Numbers start (lazies fields) loaded loaded' := by
  induction fields generalizing start j with
  | nil => cases h
  | cons first fields ih =>
      cases j with
      | zero =>
          cases h
          rcases loaded with _ | field | f
          · exact ⟨none, rfl, rfl⟩
          · exact ⟨some (.field field), rfl, rfl⟩
          · refine ⟨some (.lazy start), rfl, start, rfl, le_rfl, ?_⟩
            rw [Nat.sub_self]
            rfl
      | succ j =>
          rw [List.getElem?_cons_succ] at h
          rcases first with _ | field | f
          · exact ih start h
          · exact ih start h
          · obtain ⟨loaded', hloaded', hnumbers⟩ := ih (start + 1) h
            refine ⟨loaded', hloaded', ?_⟩
            rcases loaded with _ | field | g
            · exact hnumbers
            · exact hnumbers
            · obtain ⟨i, hi, hle, hget⟩ := hnumbers
              refine ⟨i, hi, by omega, ?_⟩
              rw [show i - start = i - (start + 1) + 1 by omega]
              exact hget

theorem getElem?_visited {fieldSelector : Option FieldSelector} {doc : Document} {j : Nat} {field : Field}
    (h : (FieldsReader.visited fieldSelector doc)[j]? = some field) : doc[j]? = some field := by
  induction doc generalizing j with
  | nil => exact h
  | cons first doc ih =>
      rw [FieldsReader.visited] at h
      split at h
      · cases j with
        | zero => exact h
        | succ j => cases h
      · cases j with
        | zero => exact h
        | succ j => exact ih h

theorem visited_none (doc : Document) : FieldsReader.visited none doc = doc := by
  induction doc with
  | nil => rfl
  | cons field doc ih =>
      rw [FieldsReader.visited, ih]
      rfl

/-- A field that has bytes, or a text in a field with a name. -/
def ReadsBack (size : Nat) (field : Field) : Prop :=
  field.value.bytes size ≠ [] ∨ field.isBinary = false ∧ field.name ≠ []

theorem toUnicode_ne_nil {size : Nat} {value : WString} (h : StringUtils.toUTF8 size value ≠ []) :
    StringUtils.toUnicode 0 (StringUtils.toUTF8 size value) ≠ [] := by
  obtain ⟨valid, hvalid, -, heq⟩ := exists_octets_eq_toUTF8 size value
  rw [heq] at h ⊢
  rw [StringUtils.toUnicode_octets 0 hvalid]
  rintro rfl
  exact h rfl

theorem eager_eq_some {size : Nat} {info : FieldInfo} {field : Field} (hname : info.name = field.name)
    (h : ReadsBack size field) : ∃ f, field.eager size info = some f ∧
      f.stringValue = (if field.isBinary then [] else StringUtils.toUnicode 0 (field.value.bytes size)) ∧
        f.getBinaryValue = if field.isBinary then some (field.value.bytes size) else none := by
  obtain ⟨name, isTokenized, value⟩ := field
  cases value with
  | binary data => exact ⟨_, if_neg (by simp [Field.isEmpty, FieldValue.readBack]), rfl, rfl⟩
  | text value =>
      refine ⟨_, if_neg ?_, rfl, rfl⟩
      intro hempty
      simp only [Field.isEmpty, FieldValue.readBack, Bool.and_eq_true, List.isEmpty_iff, beq_iff_eq,
        FieldValue.text.injEq] at hempty
      rcases h with hbytes | ⟨-, hne⟩
      · exact toUnicode_ne_nil hbytes hempty.2
      · exact hne (hname.symm.trans hempty.1)

/-- What the selector gives for a field of the document, by what loading it at once gives. -/
def Agrees (wide : ∀ w, UInt8 → Nat → BitVec w) (r : FieldsReader) (size : Nat) (s : LazyState) (field : Field)
    (eager : Option (Loaded LazyField)) (loaded : Option (Loaded Nat)) : FieldSelectorResult → Prop
  | .load | .loadAndBreak => ∃ f : Option Field, eager = f.map .field ∧ loaded = f.map .field
  | .lazyLoad => ∃ i, loaded = some (.lazy i) ∧ (ReadsBack size field → ∃ f, eager = some (.field f) ∧
      ∀ s', Later wide r s s' → s'.stringValue r i = f.stringValue ∧
        ∀ result, s'.binaryBytes r i result = f.getBinaryValue)
  | .size | .sizeAndBreak => loaded = some (.field ⟨field.name, false, .binary (writeInt (if field.isBinary then
      (field.value.bytes size).length else toInt32 (2 * (field.value.bytes size).length)))⟩)
  | .null | .noLoad => loaded = none

/-- Whatever the selector, each field of a document becomes what it says: the input is at the next field when one has
been skipped or left for later, and what is read later is what would have been read at once. -/
theorem lazy_agrees_with_eager {size : Nat} {pieces : List (List UInt8)} (hholds : r.Holds pieces) {n : Nat}
    (hreaches : r.Reaches n) {piece : List UInt8} (hpiece : pieces[n + r.docStoreOffset]? = some piece) {doc : Document}
    (hstored : r.Stored size doc piece) (hs : Reachable wide r s) (hopen : s.closed = false)
    (fieldSelector : Option FieldSelector) :
    ∃ eager loaded s', r.load wide n none = .ok eager ∧ s.document wide r n fieldSelector = .ok (loaded, s') ∧
      loaded.length = (FieldsReader.visited fieldSelector doc).length ∧
      ∀ (j : Nat) (field : Field), (FieldsReader.visited fieldSelector doc)[j]? = some field →
        ∃ e l, eager[j]? = some e ∧ loaded[j]? = some l ∧
          Agrees wide r size s' field e l (FieldsReader.acceptField fieldSelector field.name) := by
  obtain ⟨eager, heager, halleager⟩ := @FieldsReader.load_eq wide r size pieces hholds n hreaches piece hpiece doc hstored
    none
  obtain ⟨fields, hfields, hall⟩ := @FieldsReader.load_eq wide r size pieces hholds n hreaches piece hpiece doc hstored
    fieldSelector
  rw [visited_none] at halleager
  have hdocument : s.document wide r n fieldSelector = .ok (numbered s.lazyFields.length fields,
      { s with lazyFields := s.lazyFields ++ lazies fields }) := by
    rw [document, hopen, hfields]
    rfl
  refine ⟨eager, _, _, heager, hdocument, by rw [length_numbered, hall.length_eq], fun j field hj => ?_⟩
  obtain ⟨hlt, hfield⟩ := List.getElem?_eq_some_iff.mp hj
  obtain ⟨hdoc, hfield'⟩ := List.getElem?_eq_some_iff.mp (getElem?_visited hj)
  have hlt' : j < fields.length := hall.length_eq ▸ hlt
  have hdoc' : j < eager.length := halleager.length_eq ▸ hdoc
  have hloaded : r.LoadedBy size fieldSelector field fields[j] := hfield ▸ hall.get hlt hlt'
  have heagerly : r.LoadedBy size none field eager[j] := hfield' ▸ halleager.get hdoc hdoc'
  obtain ⟨l, hl, hnumbers⟩ := numbers_numbered s.lazyFields.length (List.getElem?_eq_getElem hlt')
  refine ⟨eager[j], l, List.getElem?_eq_getElem hdoc', hl, ?_⟩
  obtain ⟨info, hinfo, hname, hloadedAs⟩ := hloaded
  obtain ⟨info', hinfo', -, heagerAs⟩ := heagerly
  obtain rfl := Option.some.inj (hinfo.symm.trans hinfo')
  generalize fields[j] = loadedField at hnumbers hloadedAs
  generalize eager[j] = eagerField at heagerAs
  have heagerAs' : eagerField = (field.eager size info).map .field := heagerAs
  generalize FieldsReader.acceptField fieldSelector field.name = accept at hloadedAs
  cases accept with
  | load | loadAndBreak =>
      refine ⟨field.eager size info, heagerAs', ?_⟩
      have hloaded' : loadedField = (field.eager size info).map .field := hloadedAs
      rw [hloaded'] at hnumbers
      cases heq : field.eager size info with
      | none =>
          rw [heq] at hnumbers
          exact hnumbers
      | some f =>
          rw [heq] at hnumbers
          exact hnumbers
  | lazyLoad =>
      obtain ⟨f, rfl, -, hnull, hstands⟩ := hloadedAs
      obtain ⟨i, rfl, hle, hget⟩ := hnumbers
      refine ⟨i, rfl, fun hreads => ?_⟩
      obtain ⟨g, hg, hstring, hbinary⟩ := eager_eq_some hname hreads
      refine ⟨g, by rw [heagerAs', hg]; rfl, fun s' hlater => ?_⟩
      have hne : field.isBinary = true → field.value.bytes size ≠ [] := by
        intro htrue
        rcases hreads with hbytes | ⟨hfalse, -⟩
        · exact hbytes
        · exact absurd (htrue.symm.trans hfalse) (by decide)
      have htracked : Tracked r (field.value.bytes size) field.isBinary
          { s with lazyFields := s.lazyFields ++ lazies fields } i :=
        ⟨f, by rw [List.getElem?_append_right hle, hget], hstands, .unread hnull⟩
      have hvalid : Valid { s with lazyFields := s.lazyFields ++ lazies fields } := by
        have hstep := @Valid.step wide r s hs.valid (.document n fieldSelector)
        rwa [step, hdocument] at hstep
      obtain ⟨htracked', -, hopen'⟩ := htracked.later hvalid hopen hne hlater
      refine ⟨?_, fun result => ?_⟩
      · rw [stringValue_of_tracked htracked' hopen', hstring]
      · rw [binaryBytes_of_tracked htracked' hopen' hne, hbinary]
  | size | sizeAndBreak =>
      rw [hloadedAs, hname] at hnumbers
      exact hnumbers
  | null | noLoad =>
      rw [hloadedAs] at hnumbers
      exact hnumbers

theorem oneField_defaults : false = false → false = false ∧ false = false := fun _ => ⟨rfl, rfl⟩

def oneField : FieldInfos := [⟨[⟨0x66, WChar.f_mem⟩], false, false, false, oneField_defaults⟩]

/-- The file with the document that has been written as `piece`. -/
def readerOf (piece : List UInt8) : FieldsReader where
  fdx := writeInt FORMAT_CURRENT ++ writeLong 4
  fdt := writeInt FORMAT_CURRENT ++ piece
  docStoreOffset := 0
  numTotalDocs := 1
  fieldInfos := oneField

def oneLetter : Document := [⟨[⟨0x66, WChar.f_mem⟩], false, .text [⟨0x61, WChar.a_mem⟩]⟩]

theorem lazy_agrees_with_eager_one_letter :
    ∃ eager loaded s', (readerOf [1, 0, 0, 1, 0x61]).load (fun _ _ _ => 0) 0 none = .ok eager ∧
      start.document (fun _ _ _ => 0) (readerOf [1, 0, 0, 1, 0x61]) 0 (some fun _ => .lazyLoad) = .ok (loaded, s') ∧
      loaded.length = (FieldsReader.visited (some fun _ => .lazyLoad) oneLetter).length ∧
      ∀ (j : Nat) (field : Field), (FieldsReader.visited (some fun _ => .lazyLoad) oneLetter)[j]? = some field →
        ∃ e l, eager[j]? = some e ∧ loaded[j]? = some l ∧
          Agrees (fun _ _ _ => 0) (readerOf [1, 0, 0, 1, 0x61]) 0 s' field e l
            (FieldsReader.acceptField (some fun _ => .lazyLoad) field.name) := by
  have hholds : (readerOf [1, 0, 0, 1, 0x61]).Holds [[1, 0, 0, 1, 0x61]] := ⟨⟨rfl, rfl⟩, rfl, by decide⟩
  have hstored : (readerOf [1, 0, 0, 1, 0x61]).Stored 0 oneLetter [1, 0, 0, 1, 0x61] := by
    refine ⟨by decide +kernel, by decide, fun field hmem => ?_, by decide⟩
    rw [List.mem_singleton.mp hmem]
    decide +kernel
  exact lazy_agrees_with_eager hholds (by decide) rfl hstored .refl rfl (some fun _ => .lazyLoad)

/-- An array without bytes; the field that is loaded lazily has none. -/
theorem empty_binary_is_lost :
    FieldsWriter.writeDocument 0 oneField [⟨[⟨0x66, by decide⟩], false, .binary []⟩] = some [1, 0, 2, 0] ∧
      (readerOf [1, 0, 2, 0]).load (fun _ _ _ => 0) 0 none =
        .ok [some (.field ⟨[⟨0x66, by decide⟩], false, .binary []⟩)] ∧
      Field.getBinaryValue ⟨[⟨0x66, by decide⟩], false, .binary []⟩ = some [] ∧
      ∃ s', start.document (fun _ _ _ => 0) (readerOf [1, 0, 2, 0]) 0 (some fun _ => .lazyLoad) =
          .ok ([some (.lazy 0)], s') ∧ s'.getBinaryValue (readerOf [1, 0, 2, 0]) 0 none = none :=
  ⟨by decide +kernel, by decide +kernel, rfl, _, rfl, by decide +kernel⟩

end LazyState
end LucenePlusPlus.StoredFields
