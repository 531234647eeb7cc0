import LucenePlusPlus.SliceStreams

/-!
`ByteSliceReader`: reads a stream of a pool from its first slice to its recorded end, following the
forwarding addresses. It sees the bytes of the pool only, not the chains that the writer keeps.
-/

namespace LucenePlusPlus

structure ByteSliceReader where
  bufferUpto : Nat
  upto : Nat
  limit : Nat
  level : Nat
  bufferOffset : Nat
  endIndex : Nat

/-- `arrayCopy(buffer, offset, .., n)`. -/
def ByteBlockPool.copyOut (p : ByteBlockPool) (buffer offset n : Nat) : List UInt8 :=
  (List.range n).map fun i => p.get buffer (offset + i)

namespace ByteSliceReader
open ByteBlockPool

def init (startIndex endIndex : Nat) : ByteSliceReader :=
  let bufferUpto := startIndex / byteBlockSize
  let upto := startIndex % byteBlockSize
  let firstSize := levelSize 0
  { bufferUpto, upto
    limit := if startIndex + firstSize ≥ endIndex then endIndex % byteBlockSize
      else upto + firstSize - 4
    level := 0
    bufferOffset := bufferUpto * byteBlockSize
    endIndex }

def eof (r : ByteSliceReader) : Bool := r.upto + r.bufferOffset = r.endIndex

def nextSlice (r : ByteSliceReader) (p : ByteBlockPool) : ByteSliceReader :=
  let nextIndex := (p.get r.bufferUpto r.limit).toNat * 2 ^ 24 +
    (p.get r.bufferUpto (r.limit + 1)).toNat * 2 ^ 16 +
    (p.get r.bufferUpto (r.limit + 2)).toNat * 2 ^ 8 + (p.get r.bufferUpto (r.limit + 3)).toNat
  let level := nextLevel r.level
  let newSize := levelSize level
  let bufferUpto := nextIndex / byteBlockSize
  let bufferOffset := bufferUpto * byteBlockSize
  let upto := nextIndex % byteBlockSize
  { bufferUpto, upto
    limit := if nextIndex + newSize ≥ r.endIndex then r.endIndex - bufferOffset
      else upto + newSize - 4
    level, bufferOffset
    endIndex := r.endIndex }

def readByte (r : ByteSliceReader) (p : ByteBlockPool) : UInt8 × ByteSliceReader :=
  let r := if r.upto = r.limit then r.nextSlice p else r
  (p.get r.bufferUpto r.upto, { r with upto := r.upto + 1 })

/-- The loop of `readBytes`; `none` when `fuel` slices do not suffice. -/
def readBytesLoop (p : ByteBlockPool) :
    (fuel : Nat) → (r : ByteSliceReader) → (length : Nat) → Option (List UInt8 × ByteSliceReader)
  | 0, _, _ => none
  | fuel + 1, r, length =>
      if length = 0 then some ([], r)
      else
        let numLeft := r.limit - r.upto
        if numLeft < length then
          -- read entire slice
          (readBytesLoop p fuel (r.nextSlice p) (length - numLeft)).map fun (bytes, r') =>
            (p.copyOut r.bufferUpto r.upto numLeft ++ bytes, r')
        else some (p.copyOut r.bufferUpto r.upto length, { r with upto := r.upto + length })

def readBytes (r : ByteSliceReader) (p : ByteBlockPool) (length : Nat) :
    Option (List UInt8 × ByteSliceReader) := readBytesLoop p (length + 2) r length

/-- The loop of `writeTo`: the bytes handed to the output, their number, and the reader left behind. -/
def writeToLoop (p : ByteBlockPool) :
    (fuel : Nat) → (r : ByteSliceReader) → Option (List UInt8 × Nat × ByteSliceReader)
  | 0, _ => none
  | fuel + 1, r =>
      let bytes := p.copyOut r.bufferUpto r.upto (r.limit - r.upto)
      if r.limit + r.bufferOffset = r.endIndex then some (bytes, r.limit - r.upto, r)
      else (writeToLoop p fuel (r.nextSlice p)).map fun (rest, size, r') =>
        (bytes ++ rest, r.limit - r.upto + size, r')

/-- Every slice but the last has at least one byte, so the end of the stream bounds their number. -/
def writeTo (r : ByteSliceReader) (p : ByteBlockPool) : Option (List UInt8 × Nat × ByteSliceReader) :=
  writeToLoop p (r.endIndex + 2) r

open SliceChain

/-- The end of the data in the slice at `addr`. -/
def sliceEnd (level addr endIndex : Nat) : (slices : List Nat) → Nat
  | [] => endIndex
  | _ :: _ => addr + levelSize level - 4

/-- The reader stands in the slice at `addr`, which with the slices at `slices` holds `data`. -/
structure Standing (p : ByteBlockPool) (own : Nat → Prop) (r : ByteSliceReader) (addr : Nat)
    (slices : List Nat) (data : List UInt8) : Prop where
  chain : Chain p.mem own r.endIndex r.level addr slices data
  bufferUpto_eq : r.bufferUpto = addr / byteBlockSize
  bufferOffset_eq : r.bufferOffset = addr / byteBlockSize * byteBlockSize
  addr_le : addr ≤ r.bufferOffset + r.upto
  upto_le : r.upto ≤ r.limit
  limit_eq : r.bufferOffset + r.limit = sliceEnd r.level addr r.endIndex slices

/-- `rest` is what the reader has still to deliver. -/
def Reading (p : ByteBlockPool) (r : ByteSliceReader) (rest : List UInt8) : Prop :=
  ∃ own addr slices data, Standing p own r addr slices data ∧
    rest = data.drop (r.bufferOffset + r.upto - addr)

theorem sliceEnd_lt {mem : Mem} {own : Nat → Prop} {upto level addr : Nat} {slices : List Nat}
    {data : List UInt8} (h : Chain mem own upto level addr slices data) :
    sliceEnd level addr upto slices < addr + levelSize level := by
  have := levelSize_bounds level
  cases slices with
  | nil => exact h.2.2.1
  | cons next slices =>
      change addr + levelSize level - 4 < addr + levelSize level
      omega

theorem copyOut_eq_bytesAt {p : ByteBlockPool} {buffer offset n : Nat}
    (h : offset + n ≤ byteBlockSize) :
    p.copyOut buffer offset n = bytesAt p.mem (buffer * byteBlockSize + offset) n := by
  refine List.map_congr_left fun i hi => ?_
  rw [get_eq_mem p (by have := List.mem_range.mp hi; omega), Nat.add_assoc]

namespace Standing
variable {p : ByteBlockPool} {own : Nat → Prop} {r : ByteSliceReader} {addr : Nat}
  {slices : List Nat} {data : List UInt8}

theorem limit_lt (h : Standing p own r addr slices data) : r.limit < byteBlockSize := by
  have hend := sliceEnd_lt h.chain
  have hin := h.chain.isSlice.in_block
  rw [← h.limit_eq, h.bufferOffset_eq] at hend
  unfold byteBlockSize at *
  omega

theorem copyOut_eq (h : Standing p own r addr slices data) {n : Nat}
    (hn : r.upto + n ≤ r.limit) :
    p.copyOut r.bufferUpto r.upto n = bytesAt p.mem (r.bufferOffset + r.upto) n := by
  have := h.limit_lt
  rw [copyOut_eq_bytesAt (by omega), h.bufferUpto_eq, h.bufferOffset_eq]

/-- What is left is the rest of this slice, then the data of the slices behind it. -/
theorem drop_data (h : Standing p own r addr slices data) :
    data.drop (r.bufferOffset + r.upto - addr) =
      p.copyOut r.bufferUpto r.upto (r.limit - r.upto) ++
        data.drop (r.bufferOffset + r.limit - addr) := by
  have hle := h.upto_le
  have haddr := h.addr_le
  obtain ⟨tail, hdata⟩ : ∃ tail, data = bytesAt p.mem addr (r.bufferOffset + r.limit - addr) ++ tail := by
    have hchain := h.chain
    have hlimit := h.limit_eq
    cases slices with
    | nil => exact ⟨[], by rw [List.append_nil, hlimit]; exact hchain.2.2.2.1⟩
    | cons next slices =>
        obtain ⟨-, -, -, -, rest, hdata, -⟩ := hchain
        have := levelSize_bounds r.level
        refine ⟨rest, ?_⟩
        rw [hlimit, sliceEnd, show addr + levelSize r.level - 4 - addr = levelSize r.level - 4 by omega]
        exact hdata
  have hread : data.drop (r.bufferOffset + r.limit - addr) = tail := by
    rw [hdata, List.drop_left' (length_bytesAt _ _ _)]
  rw [hread, h.copyOut_eq (by omega), hdata,
    show r.bufferOffset + r.limit - addr = r.bufferOffset + r.upto - addr + (r.limit - r.upto) by omega,
    bytesAt_add, List.append_assoc, List.drop_left' (length_bytesAt _ _ _),
    show addr + (r.bufferOffset + r.upto - addr) = r.bufferOffset + r.upto by omega]

theorem advance (h : Standing p own r addr slices data) {n : Nat} (hn : r.upto + n ≤ r.limit) :
    Standing p own { r with upto := r.upto + n } addr slices data where
  chain := h.chain
  bufferUpto_eq := h.bufferUpto_eq
  bufferOffset_eq := h.bufferOffset_eq
  addr_le := by
    have := h.addr_le
    simp only
    omega
  upto_le := hn
  limit_eq := h.limit_eq

end Standing

section start
variable {p : ByteBlockPool} {own : Nat → Prop} {level start endIndex : Nat} {slices : List Nat}
  {data : List UInt8}

theorem le_sliceEnd (h : Chain p.mem own endIndex level start slices data) :
    start ≤ sliceEnd level start endIndex slices := by
  have := levelSize_bounds level
  cases slices with
  | nil => exact h.addr_le
  | cons next slices =>
      change start ≤ start + levelSize level - 4
      omega

theorem limit_eq_sliceEnd (h : Chain p.mem own endIndex level start slices data) :
    (if start + levelSize level ≥ endIndex then endIndex else start + levelSize level - 4) =
      sliceEnd level start endIndex slices := by
  cases slices with
  | nil => exact if_pos h.2.2.1.le
  | cons next slices =>
      obtain ⟨-, hnext, hupto, -⟩ := h
      exact if_neg (by omega)

theorem standing_start (h : Chain p.mem own endIndex level start slices data) {limit : Nat}
    (hlimit : start / byteBlockSize * byteBlockSize + limit = sliceEnd level start endIndex slices) :
    Standing p own ⟨start / byteBlockSize, start % byteBlockSize, limit, level,
      start / byteBlockSize * byteBlockSize, endIndex⟩ start slices data := by
  have hle := le_sliceEnd h
  have hdiv := Nat.div_add_mod' start byteBlockSize
  exact ⟨h, rfl, rfl, hdiv.ge, show start % byteBlockSize ≤ limit by omega, hlimit⟩

theorem standing_init (h : Chain p.mem own endIndex 0 start slices data) :
    Standing p own (init start endIndex) start slices data := by
  have hend := sliceEnd_lt h
  refine standing_start h ?_
  rw [← limit_eq_sliceEnd h] at hend ⊢
  have hle := h.addr_le
  have hin := h.isSlice.in_block
  have hsize := levelSize_bounds 0
  unfold byteBlockSize at *
  split at hend <;> rename_i hlast
  · rw [if_pos hlast, if_pos hlast]
    omega
  · rw [if_neg hlast, if_neg hlast]
    omega

end start

namespace Standing
variable {p : ByteBlockPool} {own : Nat → Prop} {r : ByteSliceReader} {addr next : Nat}
  {slices : List Nat} {data : List UInt8}

/-- The forwarding address behind the data of a slice is where the next slice starts. -/
theorem nextSlice (h : Standing p own r addr (next :: slices) data) :
    Standing p own (r.nextSlice p) next slices (data.drop (r.bufferOffset + r.limit - addr)) ∧
      (r.nextSlice p).bufferOffset + (r.nextSlice p).upto = next ∧
      (r.nextSlice p).upto < (r.nextSlice p).limit := by
  have hsize := levelSize_bounds r.level
  have hsize' := levelSize_bounds (nextLevel r.level)
  have hlimit : r.bufferOffset + r.limit = addr + levelSize r.level - 4 := h.limit_eq
  obtain ⟨hslice, hnext, hupto, hfwd, rest, hdata, htail⟩ := h.chain
  have hin := hslice.in_block
  have hdiv := Nat.div_add_mod' addr byteBlockSize
  have hoff := h.bufferOffset_eq
  have hget : ∀ i < 4, p.get r.bufferUpto (r.limit + i) =
      p.mem (addr + levelSize r.level - 4 + i) := by
    intro i hi
    rw [get_eq_mem p (by omega), h.bufferUpto_eq, ← hoff, ← hlimit, Nat.add_assoc]
  have hindex : (p.get r.bufferUpto r.limit).toNat * 2 ^ 24 +
      (p.get r.bufferUpto (r.limit + 1)).toNat * 2 ^ 16 +
      (p.get r.bufferUpto (r.limit + 2)).toNat * 2 ^ 8 +
      (p.get r.bufferUpto (r.limit + 3)).toNat = next := by
    rw [← hfwd, forward, hget 1 (by omega), hget 2 (by omega), hget 3 (by omega)]
    rw [show p.get r.bufferUpto r.limit = _ from hget 0 (by omega)]
    rfl
  have hrest : data.drop (r.bufferOffset + r.limit - addr) = rest := by
    rw [hdata, List.drop_left']
    rw [length_bytesAt]
    omega
  have hdivNext := Nat.div_add_mod' next byteBlockSize
  have heq : r.nextSlice p = ⟨next / byteBlockSize, next % byteBlockSize,
      if next + levelSize (nextLevel r.level) ≥ r.endIndex
        then r.endIndex - next / byteBlockSize * byteBlockSize
        else next % byteBlockSize + levelSize (nextLevel r.level) - 4,
      nextLevel r.level, next / byteBlockSize * byteBlockSize, r.endIndex⟩ := by
    unfold ByteSliceReader.nextSlice
    simp only [hindex]
  have hend := limit_eq_sliceEnd htail
  rw [hrest, heq]
  refine ⟨standing_start htail ?_, hdivNext, ?_⟩
  · rw [← hend]
    split <;> omega
  · simp only
    split <;> omega

theorem rest_eq_nil_iff (h : Standing p own r addr slices data) :
    data.drop (r.bufferOffset + r.limit - addr) = [] ↔ slices = [] := by
  cases slices with
  | nil =>
      have hlimit : r.bufferOffset + r.limit = r.endIndex := h.limit_eq
      obtain ⟨-, -, -, hdata, -⟩ := h.chain
      rw [hlimit, hdata]
      simp
  | cons next slices =>
      obtain ⟨hnext, hstart, hlt⟩ := h.nextSlice
      have hdrop := hnext.drop_data
      rw [hstart, Nat.sub_self, List.drop_zero] at hdrop
      refine iff_of_false (fun hnil => ?_) (List.cons_ne_nil _ _)
      rw [hdrop] at hnil
      have hlen := congrArg List.length (List.append_eq_nil_iff.mp hnil).1
      simp only [copyOut, List.length_map, List.length_range, List.length_nil] at hlen
      omega

theorem eof_iff (h : Standing p own r addr slices data) :
    r.eof = true ↔ data.drop (r.bufferOffset + r.upto - addr) = [] := by
  have hle := h.upto_le
  have hlimit := h.limit_eq
  rw [h.drop_data, List.append_eq_nil_iff, h.rest_eq_nil_iff, eof, decide_eq_true_iff]
  have hcopy : p.copyOut r.bufferUpto r.upto (r.limit - r.upto) = [] ↔ r.upto = r.limit := by
    rw [← List.length_eq_zero_iff, copyOut, List.length_map, List.length_range]
    omega
  rw [hcopy]
  cases slices with
  | nil =>
      have hlimit : r.bufferOffset + r.limit = r.endIndex := h.limit_eq
      constructor
      · intro h
        exact ⟨by omega, rfl⟩
      · rintro ⟨h, -⟩
        omega
  | cons next slices =>
      have hlimit : r.bufferOffset + r.limit = addr + levelSize r.level - 4 := h.limit_eq
      obtain ⟨-, hnext, hupto, -⟩ := h.chain
      have hsize := levelSize_bounds r.level
      exact iff_of_false (by omega) (by simp)

theorem copyOut_eq_take (h : Standing p own r addr slices data) {n : Nat}
    (hn : r.upto + n ≤ r.limit) :
    p.copyOut r.bufferUpto r.upto n = (data.drop (r.bufferOffset + r.upto - addr)).take n := by
  have hle := h.upto_le
  rw [h.drop_data, List.take_append_of_le_length (by simp [copyOut]; omega), copyOut, copyOut,
    ← List.map_take, List.take_range, Nat.min_eq_left (by omega)]

end Standing

/-! ### What the three read paths deliver -/

theorem Chain.length_le {mem : Mem} {own : Nat → Prop} {upto level addr : Nat} {slices : List Nat}
    {data : List UInt8} (h : Chain mem own upto level addr slices data) :
    data.length + addr ≤ upto := by
  induction slices generalizing level addr data with
  | nil =>
      have hle := h.addr_le
      rw [h.2.2.2.1, length_bytesAt]
      omega
  | cons next slices ih =>
      obtain ⟨-, hnext, -, -, rest, rfl, htail⟩ := h
      have := ih htail
      rw [List.length_append, length_bytesAt]
      omega

namespace Reading
variable {p : ByteBlockPool} {r : ByteSliceReader} {rest : List UInt8}

theorem eof_iff (h : Reading p r rest) : r.eof = true ↔ rest = [] := by
  obtain ⟨own, addr, slices, data, hs, rfl⟩ := h
  exact hs.eof_iff

theorem upto_le (h : Reading p r rest) : r.upto ≤ r.limit := by
  obtain ⟨own, addr, slices, data, hs, rfl⟩ := h
  exact hs.upto_le

theorem length_le (h : Reading p r rest) : rest.length ≤ r.endIndex := by
  obtain ⟨own, addr, slices, data, hs, rfl⟩ := h
  have := Chain.length_le hs.chain
  rw [List.length_drop]
  omega

theorem advance (h : Reading p r rest) {n : Nat} (hn : r.upto + n ≤ r.limit) :
    p.copyOut r.bufferUpto r.upto n = rest.take n ∧
      Reading p { r with upto := r.upto + n } (rest.drop n) := by
  obtain ⟨own, addr, slices, data, hs, rfl⟩ := h
  refine ⟨hs.copyOut_eq_take hn, own, addr, slices, data, hs.advance hn, ?_⟩
  have := hs.addr_le
  rw [List.drop_drop]
  congr 1
  simp only
  omega

/-- A reader is in the last slice, or there is a next one with at least one byte. -/
theorem slice_cases (h : Reading p r rest) :
    (r.limit + r.bufferOffset = r.endIndex ∧
      p.copyOut r.bufferUpto r.upto (r.limit - r.upto) = rest) ∨
    (r.limit + r.bufferOffset ≠ r.endIndex ∧ (r.nextSlice p).upto < (r.nextSlice p).limit ∧
      ∃ tail, rest = p.copyOut r.bufferUpto r.upto (r.limit - r.upto) ++ tail ∧
        Reading p (r.nextSlice p) tail) := by
  obtain ⟨own, addr, slices, data, hs, rfl⟩ := h
  have hdrop := hs.drop_data
  have hnil := hs.rest_eq_nil_iff
  cases slices with
  | nil =>
      have hlimit : r.bufferOffset + r.limit = r.endIndex := hs.limit_eq
      rw [hnil.mpr rfl, List.append_nil] at hdrop
      exact Or.inl ⟨by omega, hdrop.symm⟩
  | cons next slices =>
      have hlimit : r.bufferOffset + r.limit = addr + levelSize r.level - 4 := hs.limit_eq
      obtain ⟨hnext, hstart, hlt⟩ := hs.nextSlice
      obtain ⟨-, hle, hupto, -⟩ := hs.chain
      have hsize := levelSize_bounds r.level
      refine Or.inr ⟨by omega, hlt, _, hdrop, own, next, slices, _, hnext, ?_⟩
      rw [hstart, Nat.sub_self, List.drop_zero]

theorem readByte {b : UInt8} (h : Reading p r (b :: rest)) :
    (r.readByte p).1 = b ∧ Reading p (r.readByte p).2 rest := by
  have hcopy : ∀ r : ByteSliceReader, p.copyOut r.bufferUpto r.upto 1 = [p.get r.bufferUpto r.upto] :=
    fun r => rfl
  have hone : ∀ {r : ByteSliceReader}, Reading p r (b :: rest) → r.upto < r.limit →
      p.get r.bufferUpto r.upto = b ∧ Reading p { r with upto := r.upto + 1 } rest := by
    intro r h hlt
    obtain ⟨htake, hdrop⟩ := h.advance (n := 1) hlt
    rw [hcopy, List.take_succ_cons, List.take_zero] at htake
    exact ⟨List.singleton_inj.mp htake, hdrop⟩
  unfold ByteSliceReader.readByte
  by_cases hend : r.upto = r.limit
  · rw [if_pos hend]
    rcases h.slice_cases with ⟨-, hrest⟩ | ⟨-, hlt, tail, hrest, hnext⟩
    · rw [hend, Nat.sub_self] at hrest
      cases hrest
    · rw [hend, Nat.sub_self] at hrest
      exact hone (hrest ▸ hnext : Reading p (r.nextSlice p) (b :: rest)) hlt
  · rw [if_neg hend]
    exact hone h (lt_of_le_of_ne h.upto_le hend)

theorem readBytesLoop {fuel n : Nat} (h : Reading p r rest) (hn : n ≤ rest.length)
    (hfuel : n + (if r.upto = r.limit then 2 else 1) ≤ fuel) :
    ∃ r', ByteSliceReader.readBytesLoop p fuel r n = some (rest.take n, r') ∧
      Reading p r' (rest.drop n) := by
  induction fuel generalizing r rest n with
  | zero => split at hfuel <;> omega
  | succ fuel ih =>
      have hle := h.upto_le
      rw [ByteSliceReader.readBytesLoop]
      by_cases hzero : n = 0
      · subst hzero
        exact ⟨r, by simp, by simpa using h⟩
      rw [if_neg hzero]
      by_cases hleft : r.limit - r.upto < n
      · simp only [if_pos hleft]
        rcases h.slice_cases with ⟨-, hrest⟩ | ⟨-, hlt, tail, hrest, hnext⟩
        · rw [← hrest] at hn
          simp only [copyOut, List.length_map, List.length_range] at hn
          omega
        · have hlen : (p.copyOut r.bufferUpto r.upto (r.limit - r.upto)).length = r.limit - r.upto := by
            simp [copyOut]
          rw [hrest, List.length_append, hlen] at hn
          obtain ⟨r', hread, hr'⟩ := ih hnext (n := n - (r.limit - r.upto)) (by omega) (by
            rw [if_neg (by omega)]
            split at hfuel <;> omega)
          refine ⟨r', ?_, ?_⟩
          · have htake : (p.copyOut r.bufferUpto r.upto (r.limit - r.upto)).take n =
                p.copyOut r.bufferUpto r.upto (r.limit - r.upto) :=
              List.take_of_length_le (by omega)
            rw [hread, hrest, List.take_append, hlen, htake]
            rfl
          · have hdrop : (p.copyOut r.bufferUpto r.upto (r.limit - r.upto)).drop n = [] :=
              List.drop_eq_nil_of_le (by omega)
            rw [hrest, List.drop_append, hlen, hdrop, List.nil_append]
            exact hr'
      · simp only [if_neg hleft]
        obtain ⟨htake, hdrop⟩ := h.advance (n := n) (by omega)
        exact ⟨_, by rw [htake], hdrop⟩

theorem readBytes {n : Nat} (h : Reading p r rest) (hn : n ≤ rest.length) :
    ∃ r', r.readBytes p n = some (rest.take n, r') ∧ Reading p r' (rest.drop n) :=
  h.readBytesLoop hn (by split <;> omega)

theorem writeToLoop {fuel : Nat} (h : Reading p r rest)
    (hfuel : rest.length + (if r.upto = r.limit then 2 else 1) ≤ fuel) :
    ∃ r', ByteSliceReader.writeToLoop p fuel r = some (rest, rest.length, r') := by
  induction fuel generalizing r rest with
  | zero => split at hfuel <;> omega
  | succ fuel ih =>
      have hle := h.upto_le
      have hlen : (p.copyOut r.bufferUpto r.upto (r.limit - r.upto)).length = r.limit - r.upto := by
        simp [copyOut]
      rw [ByteSliceReader.writeToLoop]
      rcases h.slice_cases with ⟨hlast, hrest⟩ | ⟨hlast, hlt, tail, hrest, hnext⟩
      · rw [if_pos hlast, hrest, ← hrest, hlen]
        exact ⟨r, rfl⟩
      · rw [hrest, List.length_append, hlen] at hfuel
        obtain ⟨r', hwrite⟩ := ih hnext (by
          rw [if_neg (by omega)]
          split at hfuel <;> omega)
        refine ⟨r', ?_⟩
        rw [if_neg hlast, hwrite, hrest, List.length_append, hlen]
        rfl

theorem writeTo (h : Reading p r rest) : ∃ r', r.writeTo p = some (rest, rest.length, r') := by
  have hlen := h.length_le
  exact h.writeToLoop (by split <;> omega)

end Reading

/-- The two calls that read part of a stream. -/
inductive ReadOp where
  | readByte
  | readBytes (length : Nat)

def ReadOp.size : ReadOp → Nat
  | .readByte => 1
  | .readBytes length => length

def read (r : ByteSliceReader) (p : ByteBlockPool) : ReadOp → Option (List UInt8 × ByteSliceReader)
  | .readByte => some ([(r.readByte p).1], (r.readByte p).2)
  | .readBytes length => r.readBytes p length

/-- A sequence of reads, with the bytes they deliver one after the other. -/
def reads (r : ByteSliceReader) (p : ByteBlockPool) :
    List ReadOp → Option (List UInt8 × ByteSliceReader)
  | [] => some ([], r)
  | op :: ops => do
      let (bytes, r) ← r.read p op
      let (bytes', r) ← r.reads p ops
      return (bytes ++ bytes', r)

def totalSize (ops : List ReadOp) : Nat := (ops.map ReadOp.size).sum

theorem Reading.read {p : ByteBlockPool} {r : ByteSliceReader} {rest : List UInt8} {op : ReadOp}
    (h : Reading p r rest) (hsize : op.size ≤ rest.length) :
    ∃ r', r.read p op = some (rest.take op.size, r') ∧ Reading p r' (rest.drop op.size) := by
  cases op with
  | readByte =>
      cases rest with
      | nil => simp [ReadOp.size] at hsize
      | cons b rest =>
          obtain ⟨hb, hr⟩ := h.readByte
          exact ⟨_, by rw [ByteSliceReader.read, hb]; rfl, hr⟩
  | readBytes length => exact h.readBytes hsize

theorem Reading.reads {p : ByteBlockPool} {r : ByteSliceReader} {rest : List UInt8}
    {ops : List ReadOp} (h : Reading p r rest) (hsize : totalSize ops ≤ rest.length) :
    ∃ r', r.reads p ops = some (rest.take (totalSize ops), r') ∧
      Reading p r' (rest.drop (totalSize ops)) := by
  induction ops generalizing r rest with
  | nil => exact ⟨r, rfl, h⟩
  | cons op ops ih =>
      have htotal : totalSize (op :: ops) = op.size + totalSize ops := by
        simp [totalSize]
      rw [htotal] at hsize ⊢
      obtain ⟨r₁, hread, hr₁⟩ := h.read (show op.size ≤ rest.length by omega)
      obtain ⟨r₂, hreads, hr₂⟩ := ih hr₁ (by rw [List.length_drop]; omega)
      refine ⟨r₂, ?_, by rw [← List.drop_drop]; exact hr₂⟩
      rw [ByteSliceReader.reads, hread]
      simp [hreads, List.take_add]

theorem reading_init {s : StreamPool} {i : Nat} {st : ByteStream} (hs : s.Disjoint)
    (hst : s.streams[i]? = some st) : Reading s.pool (init st.start st.upto) st.written := by
  obtain ⟨owner, hs⟩ := hs
  obtain ⟨slices, hchain⟩ := hs.chain i st hst
  have hstanding := standing_init hchain
  refine ⟨_, _, _, _, hstanding, ?_⟩
  have hdiv := Nat.div_add_mod' st.start byteBlockSize
  rw [show (init st.start st.upto).bufferOffset + (init st.start st.upto).upto - st.start = 0 by
    simp only [init]; omega]
  rfl

/-- Whatever was done to the pools that share an allocator, each stream of a pool reads back as the
bytes written to it since the pool's last reset, in any split over `readByte` and `readBytes`, and
`writeTo` delivers what the reads left. -/
theorem stream_reads_back {ops : List (Nat × PoolOp)} {s : PoolState} {k i : Nat} {st : ByteStream}
    (hrun : PoolState.init.run ops = some s) (hst : (s.pools k).streams[i]? = some st) :
    ∃ data, (PoolState.contentsAfter k [] ops)[i]? = some data ∧
      ∀ reads : List ReadOp, totalSize reads ≤ data.length →
        ∃ r, (init st.start st.upto).reads (s.pools k).pool reads =
            some (data.take (totalSize reads), r) ∧
          (r.eof = true ↔ totalSize reads = data.length) ∧
          ∃ r', r.writeTo (s.pools k).pool =
            some (data.drop (totalSize reads), data.length - totalSize reads, r') := by
  have hsound := PoolState.sound_init.run hrun
  have hcontents := PoolState.run_contents PoolState.sound_init hrun k
  refine ⟨st.written, ?_, fun reads hsize => ?_⟩
  · change _ = PoolState.contentsAfter k [] ops at hcontents
    rw [← hcontents, List.getElem?_map, hst]
    rfl
  · obtain ⟨r, hreads, hr⟩ := (reading_init (hsound.disjoint k) hst).reads hsize
    obtain ⟨r', hwrite⟩ := hr.writeTo
    refine ⟨r, hreads, ?_, r', ?_⟩
    · rw [hr.eof_iff, List.drop_eq_nil_iff]
      omega
    · rw [hwrite, List.length_drop]

/-- Two streams of one pool, the first one longer than its first slice. -/
def twoStreams : List (Nat × PoolOp) :=
  [(0, .newSlice), (0, .newSlice), (0, .writeByte 0 1), (0, .writeByte 1 9),
    (0, .writeBytes 0 [2, 3, 4, 5, 6]), (1, .newSlice), (0, .writeByte 1 8)]

theorem stream_reads_back_two_streams :
    ∃ s st r, PoolState.init.run twoStreams = some s ∧ (s.pools 0).streams[0]? = some st ∧
      (init st.start st.upto).reads (s.pools 0).pool [.readByte, .readBytes 4] =
        some ([1, 2, 3, 4, 5], r) := by
  have hsome : ((PoolState.init.run twoStreams).bind fun s => (s.pools 0).streams[0]?).isSome := by
    decide
  obtain ⟨st, hst⟩ := Option.isSome_iff_exists.mp hsome
  obtain ⟨s, hrun, hst⟩ := Option.bind_eq_some_iff.mp hst
  obtain ⟨data, hdata, hreads⟩ := stream_reads_back hrun hst
  have hcontents : (PoolState.contentsAfter 0 [] twoStreams)[0]? = some [1, 2, 3, 4, 5, 6] := by decide
  obtain rfl := Option.some.inj (hdata.symm.trans hcontents)
  obtain ⟨r, hread, -⟩ := hreads [.readByte, .readBytes 4] (by decide)
  exact ⟨s, st, r, hrun, hst, hread⟩

end ByteSliceReader
end LucenePlusPlus
