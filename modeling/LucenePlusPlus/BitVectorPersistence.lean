import LucenePlusPlus.ByteBitVector
import LucenePlusPlus.SegmentReader

/-!
Which vectors of bits come back from the file that they are written to. In the format of gaps each one does; in the
other one as many bytes are read as the constructor takes, and `subset` may take one less.
-/

namespace LucenePlusPlus.ByteBitVector
open WordBits Decoders IndexOutput IndexInput

variable {wide : ∀ w, UInt8 → Nat → BitVec w} {v : ByteBitVector}

section Gaps

theorem byteCount_eq_zero {b : BitVec 8} : byteCount b = 0 ↔ b = 0 := by
  rw [byteCount_eq_pop, pop, Nat.count_iff_forall_not]
  constructor
  · intro h
    apply BitVec.eq_of_getLsbD_eq
    intro i hi
    rw [(Bool.not_eq_true _).mp (h i hi)]
    exact BitVec.getLsbD_zero.symm
  · rintro rfl i hi hbit
    exact absurd (hbit.symm.trans BitVec.getLsbD_zero) (by decide)

theorem getD_cons_sub {bits : List (BitVec 8)} {b : BitVec 8} {i j : Nat} (h : i < j) :
    (b :: bits).getD (j - i) 0 = bits.getD (j - (i + 1)) 0 := by
  rw [show j - i = j - (i + 1) + 1 by omega, List.getD_cons_succ]

theorem decodes_readGaps {bits bits' : List (BitVec 8)} {i last rounds : Nat} {n : Int} (hlast : last ≤ i)
    (hbits' : bits'.length ≤ 0x80000000) (hn : n = ((bits.map byteCount).sum : Nat))
    (hroom : ∀ j, bits.getD j 0 ≠ 0 → i + j < bits'.length)
    (hrounds : (writeGaps bits i last n).length ≤ rounds) :
    ∃ bits'', Decodes (readGaps wide (rounds + 1) bits' last n) (writeGaps bits i last n) bits'' ∧
      bits''.length = bits'.length ∧
      ∀ j, bits''.getD j 0 =
        if i ≤ j ∧ bits.getD (j - i) 0 ≠ 0 then bits.getD (j - i) 0 else bits'.getD j 0 := by
  induction bits generalizing bits' i last rounds n with
  | nil =>
      refine ⟨bits', ?_, rfl, fun j => by simp⟩
      rw [readGaps, if_pos (by rw [hn]; rfl), writeGaps]
      exact decodes_pure bits'
  | cons b bits ih =>
      by_cases hdone : n ≤ 0
      · have hzero : ∀ j, (b :: bits).getD j 0 = 0 := by
          intro j
          by_cases hj : j < (b :: bits).length
          · rw [List.getD_eq_getElem?_getD, List.getElem?_eq_getElem hj, Option.getD_some, ← byteCount_eq_zero]
            have hsum : ((b :: bits).map byteCount).sum = 0 := by omega
            exact List.sum_eq_zero_iff.mp hsum _ (List.mem_map_of_mem (List.getElem_mem hj))
          · rw [List.getD_eq_getElem?_getD, List.getElem?_eq_none (by omega), Option.getD_none]
        refine ⟨bits', ?_, rfl, fun j => by rw [if_neg (fun h => h.2 (hzero _))]⟩
        rw [readGaps, if_pos hdone, writeGaps, if_pos hdone]
        exact decodes_pure bits'
      · rw [List.map_cons, List.sum_cons] at hn
        rw [writeGaps, if_neg hdone] at hrounds ⊢
        by_cases hb : b ≠ 0
        · rw [if_pos hb] at hrounds ⊢
          have hplace : i < bits'.length := hroom 0 hb
          rw [List.length_append, List.length_append, List.length_singleton] at hrounds
          obtain ⟨rounds, rfl⟩ : ∃ r, rounds = r + 1 := ⟨rounds - 1, by omega⟩
          obtain ⟨bits'', hread, hlength, hbits⟩ := @ih (bits'.set i b) (i + 1) i rounds (n - byteCount b)
            (Nat.le_succ i) (by rwa [List.length_set]) (by rw [hn, Nat.cast_add]; omega)
            (fun j hj => by
              rw [List.length_set, Nat.add_assoc, Nat.add_comm 1]
              exact hroom (j + 1) (by rwa [List.getD_cons_succ]))
            (by omega)
          refine ⟨bits'', ?_, by rw [hlength, List.length_set], fun j => ?_⟩
          · rw [readGaps, if_neg hdone, List.append_assoc]
            apply (decodes_readVInt (by omega) (by omega)).bind
            apply Decodes.cons
            have hsum : (last : Int) + (i - last) = i := by omega
            dsimp only
            rw [hsum, if_neg (by omega), Int.toNat_natCast]
            exact hread
          · rw [hbits]
            rcases Nat.lt_trichotomy i j with hlt | rfl | hgt
            · rw [getD_cons_sub hlt, getD_set_of_ne (by omega)]
              simp [hlt, Nat.le_of_lt hlt]
            · rw [if_neg (by omega), getD_set_self hplace, Nat.sub_self, List.getD_cons_zero, if_pos ⟨le_rfl, hb⟩]
            · rw [if_neg (by omega), if_neg (by omega), getD_set_of_ne (by omega)]
        · rw [if_neg hb] at hrounds ⊢
          rw [not_not] at hb
          rw [hb, byteCount_eq_zero.mpr rfl, Nat.zero_add] at hn
          obtain ⟨bits'', hread, hlength, hbits⟩ := @ih bits' (i + 1) last rounds n (by omega) hbits' hn
            (fun j hj => by
              rw [Nat.add_assoc, Nat.add_comm 1]
              exact hroom (j + 1) (by rwa [List.getD_cons_succ]))
            hrounds
          refine ⟨bits'', hread, hlength, fun j => ?_⟩
          rw [hbits]
          rcases Nat.lt_trichotomy i j with hlt | rfl | hgt
          · rw [getD_cons_sub hlt]
            simp [hlt, Nat.le_of_lt hlt]
          · rw [if_neg (by omega), Nat.sub_self, List.getD_cons_zero, if_neg (fun h => h.2 hb)]
          · rw [if_neg (by omega), if_neg (by omega)]

end Gaps

section Files

theorem lt_of_getD_ne_zero (h : Fits v.bits v.size) {j : Nat} (hj : v.bits.getD j 0 ≠ 0) : j < v.size / 8 + 1 := by
  by_contra hge
  exact hj (getD_eq_zero_of_bit_eq (by decide) fun k _ => h.padding _ (by omega))

theorem count_le_size (h : Sound v) : 0 ≤ v.count ∧ v.count ≤ v.size := by
  rw [h.count_eq]
  have hle : popBelow v.bits v.size ≤ v.size := Nat.count_le _
  omega

theorem read_writeDgaps (h : Sound v) : ∃ bits, bits.length = v.size / 8 + 1 ∧
    (∀ j, bits.getD j 0 = v.bits.getD j 0) ∧ read wide v.writeDgaps = .ok (⟨bits, v.size, v.count⟩, []) := by
  obtain ⟨hnonneg, hle⟩ := count_le_size h
  have hsize := h.size_lt
  have hsum : v.count = ((v.bits.map byteCount).sum : Nat) := by
    rw [h.count_eq, ← getRecomputedCount_eq h.toFits]
    rfl
  have hzeros : (List.replicate ((v.size >>> 3) + 1) (0 : BitVec 8)).length = v.size / 8 + 1 := by
    rw [List.length_replicate, Nat.shiftRight_eq_div_pow]
  obtain ⟨bits, hread, hlength, hbits⟩ := @decodes_readGaps wide v.bits
    (List.replicate ((v.size >>> 3) + 1) 0) 0 0 (writeGaps v.bits 0 0 v.count).length v.count le_rfl (by omega) hsum
    (fun j hj => by
      rw [hzeros, Nat.zero_add]
      exact lt_of_getD_ne_zero h.toFits hj)
    le_rfl
  refine ⟨bits, hlength.trans hzeros, fun j => ?_, ?_⟩
  · rw [hbits, Nat.sub_zero]
    split_ifs with hne
    · rfl
    · rw [not_and, not_not] at hne
      rw [hne (Nat.zero_le j), List.getD_eq_getElem?_getD, List.getElem?_replicate]
      split <;> rfl
  · have hcounted : (⟨List.replicate ((v.size >>> 3) + 1) 0, v.size, v.count⟩ : ByteBitVector).count = v.count :=
      if_neg (by dsimp only; omega)
    rw [read, writeDgaps, List.append_assoc, List.append_assoc, bind_eq (decodes_readInt (by omega) (by omega) _),
      if_pos rfl, readDgaps, bind_eq (decodes_readInt (by omega) (by omega) _),
      bind_eq (decodes_readInt (by omega) (by omega) _), if_neg (by omega), Int.toNat_natCast]
    dsimp only
    rw [bind_eq (d := getThe (List UInt8)) rfl, hcounted]
    exact bind_eq hread.run_eq

theorem read_writeBits (h : Sound v) : read wide v.writeBits =
    if v.size / 8 + 1 ≤ v.bits.length then
      .ok (⟨v.bits.take (v.size / 8 + 1), v.size, v.count⟩, (v.bits.drop (v.size / 8 + 1)).map UInt8.ofBitVec)
    else .error .readPastEOF := by
  obtain ⟨hnonneg, hle⟩ := count_le_size h
  have hsize := h.size_lt
  have hshift : v.size >>> 3 = v.size / 8 := Nat.shiftRight_eq_div_pow v.size 3
  rw [read, writeBits, List.append_assoc, bind_eq (decodes_readInt (by omega) (by omega) _), if_neg (by omega),
    if_neg (by omega), Int.toNat_natCast, readBits, bind_eq (decodes_readInt (by omega) (by omega) _), hshift]
  split_ifs with hroom
  · rw [bind_eq (d := take InputError.readPastEOF (v.size / 8 + 1)) (if_pos (by rwa [List.length_map]))]
    have hsame : (((v.bits.map UInt8.ofBitVec).take (v.size / 8 + 1)).map UInt8.toBitVec) =
        v.bits.take (v.size / 8 + 1) := by
      rw [← List.map_take, List.map_map]
      exact List.map_id _
    rw [hsame, List.map_drop]
    rfl
  · have htake : take InputError.readPastEOF (v.size / 8 + 1) (v.bits.map UInt8.ofBitVec) = .error .readPastEOF :=
      if_neg (by rwa [List.length_map])
    change (take InputError.readPastEOF (v.size / 8 + 1) (v.bits.map UInt8.ofBitVec) >>= _) = _
    rw [htake]
    rfl

/-- The array has a byte for the bit behind the last one, or it is written as gaps. -/
def Readable (v : ByteBitVector) : Prop := v.size / 8 + 1 ≤ v.bits.length ∨ v.isSparse = true

theorem read_write (h : Sound v) (hreadable : v.Readable) : ∃ bits rest, bits.length = v.size / 8 + 1 ∧
    (∀ j < v.size / 8 + 1, bits.getD j 0 = v.bits.getD j 0) ∧
      read wide v.write = .ok (⟨bits, v.size, v.count⟩, rest) := by
  cases hsparse : v.isSparse with
  | true =>
      obtain ⟨bits, hlength, hbits, hread⟩ := @read_writeDgaps wide v h
      rw [write, if_pos hsparse]
      exact ⟨bits, [], hlength, fun j _ => hbits j, hread⟩
  | false =>
      have hroom := hreadable.resolve_right (by rw [hsparse]; exact Bool.false_ne_true)
      rw [write, if_neg (by rw [hsparse]; exact Bool.false_ne_true), read_writeBits h, if_pos hroom]
      refine ⟨v.bits.take (v.size / 8 + 1), _, ?_, fun j hj => ?_, rfl⟩
      · rw [List.length_take, min_eq_left hroom]
      · rw [List.getD_eq_getElem?_getD, List.getElem?_take_of_lt hj, List.getD_eq_getElem?_getD]

theorem read_write_error (h : Sound v) (hreadable : ¬ v.Readable) : read wide v.write = .error .readPastEOF := by
  obtain ⟨hroom, hsparse⟩ := not_or.mp hreadable
  rw [write, if_neg hsparse, read_writeBits h, if_neg hroom]

theorem Sound.read (h : Sound v) {w : ByteBitVector} {rest : List UInt8}
    (hread : ByteBitVector.read wide v.write = .ok (w, rest)) : Sound w := by
  have hsize := h.size_lt
  have hreadable : v.Readable := by
    by_contra hnot
    rw [read_write_error h hnot] at hread
    cases hread
  obtain ⟨bits, rest', hlength, hbits, hok⟩ := @read_write wide v h hreadable
  rw [hok] at hread
  cases hread
  have hsame : ∀ i < v.size, WordBits.bit bits i = WordBits.bit v.bits i :=
    fun i hi => bit_of_getD_eq (hbits _ (by omega))
  refine ⟨⟨by dsimp only; omega, fun i hi => ?_⟩, hsize, .inr ?_⟩
  · by_cases hbyte : i / 8 < v.size / 8 + 1
    · exact (bit_of_getD_eq (hbits _ hbyte)).trans (h.padding i hi)
    · exact bit_of_le (by dsimp only; omega)
  · rw [popBelow_congr hsame]
    exact h.count_eq

end Files

section Persistence

/-- What the vector stands for. -/
def toBitVector (v : ByteBitVector) : BitVector := ⟨(List.range v.size).map v.get⟩

theorem count_toBitVector (v : ByteBitVector) : v.toBitVector.count = popBelow v.bits v.size := by
  rw [toBitVector, BitVector.count, List.count, List.countP_map, popBelow, Nat.count]
  refine List.countP_congr fun i _ => ?_
  simp [get_eq]

/-- The vector that is read from the file has the size, the bits and their number. -/
def Persists (wide : ∀ w, UInt8 → Nat → BitVec w) (v : ByteBitVector) : Prop :=
  ∃ w rest, read wide v.write = .ok (w, rest) ∧ w.size = v.size ∧ (∀ bit < v.size, w.get bit = v.get bit) ∧
    w.count = v.toBitVector.count

theorem persists_iff_of_sound (h : Sound v) : Persists wide v ↔ v.Readable := by
  constructor
  · rintro ⟨w, rest, hok, -⟩
    by_contra hnot
    rw [read_write_error h hnot] at hok
    cases hok
  · intro hreadable
    have hnonneg := (count_le_size h).1
    obtain ⟨bits, rest, -, hbits, hread⟩ := @read_write wide v h hreadable
    refine ⟨_, rest, hread, rfl, fun bit hbit => ?_, ?_⟩
    · rw [get_eq, get_eq]
      exact bit_of_getD_eq (hbits _ (by omega))
    · rw [count, if_neg (by dsimp only; omega), count_toBitVector, h.count_eq]

/-- The vectors that are made by the constructors and changed by the operations. -/
inductive Reachable (wide : ∀ w, UInt8 → Nat → BitVec w) : ByteBitVector → Prop
  | ofSize {n : Nat} (hn : n < 0x80000000) : Reachable wide (ofSize n)
  | ofBits {bits : List (BitVec 8)} {size : Nat} (hfits : Fits bits size) (hsize : size < 0x80000000) :
      Reachable wide (ofBits bits size)
  | read {v w : ByteBitVector} {rest : List UInt8} (h : Reachable wide v)
      (hread : ByteBitVector.read wide v.write = .ok (w, rest)) : Reachable wide w
  | set {v w : ByteBitVector} {bit : Nat} (h : Reachable wide v) (hset : v.set bit = some w) : Reachable wide w
  | getAndSet {v w : ByteBitVector} {bit : Nat} {old : Bool} (h : Reachable wide v)
      (hset : v.getAndSet bit = some (old, w)) : Reachable wide w
  | clear {v w : ByteBitVector} {bit : Nat} (h : Reachable wide v) (hclear : v.clear bit = some w) : Reachable wide w
  | count {v : ByteBitVector} (h : Reachable wide v) : Reachable wide v.counted
  | clone {v : ByteBitVector} (h : Reachable wide v) : Reachable wide v.clone
  | subset {v w : ByteBitVector} {start last : Nat} (h : Reachable wide v) (hsubset : v.subset start last = some w) :
      Reachable wide w

theorem sound_of_reachable (h : Reachable wide v) : Sound v := by
  induction h with
  | ofSize hn => exact sound_ofSize hn
  | ofBits hfits hsize => exact sound_ofBits hfits hsize
  | read _ hread ih => exact ih.read hread
  | set _ hset ih => exact ih.set hset
  | getAndSet _ hset ih => exact ih.getAndSet hset
  | clear _ hclear ih => exact ih.clear hclear
  | count _ ih => exact ih.counted
  | clone _ ih => exact ih.clone
  | subset _ hsubset ih => exact ih.subset hsubset

/-- The count is the number of bits that are set, and the vector comes back when written, exactly under this
condition. -/
theorem count_and_persists_iff (h : Reachable wide v) :
    (v.count = v.toBitVector.count ∧ Persists wide v) ↔ v.Readable := by
  have hsound := sound_of_reachable h
  have hcount : v.count = v.toBitVector.count := by rw [count_toBitVector, hsound.count_eq]
  rw [← persists_iff_of_sound hsound]
  exact and_iff_right hcount

/-- How octets are widened where that is defined. -/
def shiftLeft (w : Nat) (b : UInt8) (shift : Nat) : BitVec w := BitVec.ofNat w b.toNat <<< shift

theorem count_and_persists_iff_set : ∃ v, (ofSize 3).set 1 = some v ∧ Reachable shiftLeft v ∧
    ((v.count = v.toBitVector.count ∧ Persists shiftLeft v) ↔ v.Readable) :=
  have h : Reachable shiftLeft (ofSize 3) := .ofSize (by decide)
  have hset : (ofSize 3).set 1 = some _ := rfl
  ⟨_, hset, .set h hset, count_and_persists_iff (.set h hset)⟩

/-- The first eight of sixteen bits. -/
theorem subset_does_not_persist : ∃ v, (ofSize 16).subset 0 8 = some v ∧ Reachable shiftLeft v ∧
    ¬ Persists shiftLeft v := by
  have hsubset : (ofSize 16).subset 0 8 = some (ofBits [0] 8) := by decide
  have hsound : Sound (ofBits [0] 8) := (sound_ofSize (by decide : 16 < 0x80000000)).subset hsubset
  refine ⟨_, hsubset, .subset (.ofSize (by decide)) hsubset, ?_⟩
  rw [persists_iff_of_sound hsound]
  exact not_or.mpr ⟨by decide, by decide⟩

end Persistence

end LucenePlusPlus.ByteBitVector
