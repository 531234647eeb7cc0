import LucenePlusPlus.SliceChain
import LucenePlusPlus.VarInt

/-!
The streams of a pool are chains that own disjoint sets of addresses. Every operation of the pool and
of the stream writer keeps this, whatever stream it is about, so the bytes of one stream are never
touched by an operation on another one; a reset leaves only zeroed blocks behind.
-/

namespace LucenePlusPlus

/-- The blocks waiting to be reused are zero filled. -/
def ByteBlockAllocator.AllZero (a : ByteBlockAllocator) : Prop :=
  ∀ b ∈ a.freeByteBlocks, ∀ i < byteBlockSize, b i = 0

theorem ByteBlockAllocator.getByteBlock_spec {a : ByteBlockAllocator} (h : a.AllZero) :
    (∀ i < byteBlockSize, a.getByteBlock.1 i = 0) ∧ a.getByteBlock.2.AllZero := by
  unfold getByteBlock
  cases hlast : a.freeByteBlocks.getLast? with
  | none => exact ⟨fun i _ => rfl, h⟩
  | some b => exact ⟨h b (List.mem_of_getLast? hlast), fun c hc => h c (List.mem_of_mem_dropLast hc)⟩

namespace ByteBlockPool

/-- The number of addresses of the allocated blocks. -/
def capacity (p : ByteBlockPool) : Nat := p.buffers.length * byteBlockSize

/-- The first address that has never been handed out. -/
def top (p : ByteBlockPool) : Nat := p.capacity + p.byteUpto - byteBlockSize

/-- The free part of the pool is zero, and all addresses fit an `int32_t`. -/
structure WF (p : ByteBlockPool) : Prop where
  byteUpto_le : p.byteUpto ≤ byteBlockSize
  empty : p.buffers = [] → p.byteUpto = byteBlockSize
  limit : p.capacity ≤ addressLimit
  fresh : ∀ x, p.top ≤ x → x < p.capacity → p.mem x = 0

theorem wf_empty : WF ByteBlockPool.empty where
  byteUpto_le := le_rfl
  empty _ := rfl
  limit := Nat.zero_le _
  fresh x _ h := by simp [capacity, ByteBlockPool.empty] at h

@[simp] theorem length_put (p : ByteBlockPool) (buffer offset : Nat) (b : UInt8) :
    (p.put buffer offset b).buffers.length = p.buffers.length := by simp [put]

@[simp] theorem byteUpto_put (p : ByteBlockPool) (buffer offset : Nat) (b : UInt8) :
    (p.put buffer offset b).byteUpto = p.byteUpto := rfl

@[simp] theorem bufferUpto_put (p : ByteBlockPool) (buffer offset : Nat) (b : UInt8) :
    (p.put buffer offset b).bufferUpto = p.bufferUpto := by simp [bufferUpto]

@[simp] theorem byteOffset_put (p : ByteBlockPool) (buffer offset : Nat) (b : UInt8) :
    (p.put buffer offset b).byteOffset = p.byteOffset := by simp [byteOffset]

@[simp] theorem capacity_put (p : ByteBlockPool) (buffer offset : Nat) (b : UInt8) :
    (p.put buffer offset b).capacity = p.capacity := by simp [capacity]

@[simp] theorem top_put (p : ByteBlockPool) (buffer offset : Nat) (b : UInt8) :
    (p.put buffer offset b).top = p.top := by simp [top]

@[simp] theorem mem_take (p : ByteBlockPool) (size : Nat) : (p.take size).mem = p.mem := rfl

@[simp] theorem buffers_take (p : ByteBlockPool) (size : Nat) :
    (p.take size).buffers = p.buffers := rfl

@[simp] theorem byteUpto_take (p : ByteBlockPool) (size : Nat) :
    (p.take size).byteUpto = p.byteUpto + size := rfl

@[simp] theorem bufferUpto_take (p : ByteBlockPool) (size : Nat) :
    (p.take size).bufferUpto = p.bufferUpto := rfl

@[simp] theorem byteOffset_take (p : ByteBlockPool) (size : Nat) :
    (p.take size).byteOffset = p.byteOffset := rfl

@[simp] theorem capacity_take (p : ByteBlockPool) (size : Nat) :
    (p.take size).capacity = p.capacity := rfl

theorem mem_append_block (p : ByteBlockPool) (block : Block) (x : Nat) :
    mem ⟨p.buffers ++ [block], 0⟩ x =
      if x < p.capacity then p.mem x
      else if x < p.capacity + byteBlockSize then block (x % byteBlockSize) else 0 := by
  have hdiv : x / byteBlockSize < p.buffers.length ↔ x < p.capacity :=
    Nat.div_lt_iff_lt_mul (by decide)
  simp only [mem, get, List.getD_eq_getElem?_getD]
  by_cases hx : x < p.capacity
  · rw [if_pos hx, List.getElem?_append_left (hdiv.mpr hx)]
  · have hle : p.buffers.length ≤ x / byteBlockSize := by
      rw [← Nat.not_lt, hdiv]
      exact hx
    rw [if_neg hx, List.getElem?_append_right hle]
    by_cases hb : x < p.capacity + byteBlockSize
    · have hlt : x / byteBlockSize < p.buffers.length + 1 := by
        rw [Nat.div_lt_iff_lt_mul (by decide), Nat.add_mul, Nat.one_mul]
        exact hb
      rw [if_pos hb, show x / byteBlockSize - p.buffers.length = 0 by omega]
      rfl
    · have hge : p.buffers.length + 1 ≤ x / byteBlockSize := by
        rw [Nat.le_div_iff_mul_le (by decide), Nat.add_mul, Nat.one_mul]
        exact Nat.not_lt.mp hb
      rw [if_neg hb, List.getElem?_eq_none (by simp; omega)]
      rfl

/-- `p'` extends `p` by free blocks: what was handed out before has not moved or changed. -/
structure Grown (p p' : ByteBlockPool) : Prop where
  wf : WF p'
  top_le : p.top ≤ p'.top
  mem_eq : ∀ x, x < p.top → p'.mem x = p.mem x

theorem top_le_capacity {p : ByteBlockPool} (h : WF p) : p.top ≤ p.capacity := by
  have := h.byteUpto_le
  unfold top
  omega

theorem nextBuffer_spec {p p' : ByteBlockPool} {a a' : ByteBlockAllocator} (hp : WF p)
    (ha : a.AllZero) (h : p.nextBuffer a = some (p', a')) :
    Grown p p' ∧ a'.AllZero ∧ p'.byteUpto = 0 ∧ p'.buffers ≠ [] := by
  unfold nextBuffer at h
  split at h
  · rename_i hlimit
    obtain ⟨hzero, ha'⟩ := ByteBlockAllocator.getByteBlock_spec ha
    simp only [Option.some.injEq, Prod.mk.injEq] at h
    obtain ⟨rfl, rfl⟩ := h
    have hcap : capacity ⟨p.buffers ++ [a.getByteBlock.1], 0⟩ = p.capacity + byteBlockSize := by
      simp [capacity, Nat.add_mul]
    have htop : top ⟨p.buffers ++ [a.getByteBlock.1], 0⟩ = p.capacity := by
      simp only [top, hcap, Nat.add_zero, Nat.add_sub_cancel]
    have hle := top_le_capacity hp
    refine ⟨⟨⟨Nat.zero_le _, by simp, ?_, ?_⟩, by rw [htop]; exact hle, ?_⟩, ha', rfl, by simp⟩
    · rw [hcap, capacity, ← Nat.succ_mul]
      exact hlimit.le
    · intro x h₁ h₂
      rw [htop] at h₁
      rw [hcap] at h₂
      rw [mem_append_block, if_neg (by omega), if_pos h₂]
      exact hzero _ (Nat.mod_lt _ (by decide))
    · intro x hx
      rw [mem_append_block, if_pos (by omega)]
  · cases h

/-- After `makeRoom` the current block has room for `size` bytes, from address `top` on. -/
theorem makeRoom_spec {p p' : ByteBlockPool} {a a' : ByteBlockAllocator} {size : Nat} (hp : WF p)
    (ha : a.AllZero) (hpos : 0 < size) (hsize : size ≤ byteBlockSize)
    (h : p.makeRoom a size = some (p', a')) :
    Grown p p' ∧ a'.AllZero ∧ p'.byteUpto + size ≤ byteBlockSize ∧ p'.buffers ≠ [] := by
  unfold makeRoom at h
  split at h
  · obtain ⟨hg, ha', hupto, hne⟩ := nextBuffer_spec hp ha h
    exact ⟨hg, ha', by omega, hne⟩
  · rename_i hroom
    simp only [Option.some.injEq, Prod.mk.injEq] at h
    obtain ⟨rfl, rfl⟩ := h
    refine ⟨⟨hp, le_rfl, fun _ _ => rfl⟩, ha, by omega, fun hnil => ?_⟩
    have := hp.empty hnil
    omega

theorem byteOffset_add_byteBlockSize {p : ByteBlockPool} (hne : p.buffers ≠ []) :
    p.byteOffset + byteBlockSize = p.capacity := by
  have hpos := List.length_pos_iff.mpr hne
  rw [capacity, byteOffset, bufferUpto, ← Nat.succ_mul]
  congr 1
  omega

theorem byteOffset_add_byteUpto {p : ByteBlockPool} (hne : p.buffers ≠ []) :
    p.byteOffset + p.byteUpto = p.top := by
  have := byteOffset_add_byteBlockSize hne
  unfold top
  omega

theorem bufferUpto_lt {p : ByteBlockPool} (hne : p.buffers ≠ []) :
    p.bufferUpto < p.buffers.length := by
  have hpos := List.length_pos_iff.mpr hne
  unfold bufferUpto
  omega

/-- The room just made becomes a slice: its addresses start at the old `top`, which is
`byteUpto + byteOffset` in the source. -/
structure Taken (p p' : ByteBlockPool) (size : Nat) : Prop where
  byteUpto_eq : p'.byteUpto = p.byteUpto + size
  capacity_eq : p'.capacity = p.capacity
  mem_eq : ∀ x, p.top + size ≤ x → p'.mem x = p.mem x

theorem Taken.top_eq {p p' : ByteBlockPool} {size : Nat} (h : Taken p p' size)
    (hne : p.buffers ≠ []) : p'.top = p.top + size := by
  have hpos := List.length_pos_iff.mpr hne
  have hcap : byteBlockSize ≤ p.capacity := Nat.le_mul_of_pos_left _ hpos
  unfold top
  rw [h.capacity_eq, h.byteUpto_eq]
  omega

theorem Taken.wf {p p' : ByteBlockPool} {size : Nat} (h : Taken p p' size) (hp : WF p)
    (hne : p.buffers ≠ []) (hfits : p.byteUpto + size ≤ byteBlockSize) : WF p' where
  byteUpto_le := by rw [h.byteUpto_eq]; exact hfits
  empty hnil := by
    have hcap := h.capacity_eq
    have hpos := List.length_pos_iff.mpr hne
    have hcap : 0 < p.capacity := Nat.mul_pos hpos (by decide)
    rw [← h.capacity_eq, capacity, hnil, List.length_nil, Nat.zero_mul] at hcap
    omega
  limit := by rw [h.capacity_eq]; exact hp.limit
  fresh x h₁ h₂ := by
    rw [h.top_eq hne] at h₁
    rw [h.mem_eq x h₁]
    exact hp.fresh x (by omega) (h.capacity_eq ▸ h₂)

theorem top_add_le_capacity {p : ByteBlockPool} {size : Nat} (hne : p.buffers ≠ [])
    (hfits : p.byteUpto + size ≤ byteBlockSize) : p.top + size ≤ p.capacity := by
  have hpos := List.length_pos_iff.mpr hne
  have hcap : byteBlockSize ≤ p.capacity := Nat.le_mul_of_pos_left _ hpos
  unfold top
  omega

theorem top_in_block {p : ByteBlockPool} {size : Nat} (hne : p.buffers ≠ []) (hpos : 0 < size)
    (hfits : p.byteUpto + size ≤ byteBlockSize) : p.top % byteBlockSize + size ≤ byteBlockSize := by
  rw [← byteOffset_add_byteUpto hne, byteOffset, address_mod (by omega)]
  exact hfits

theorem newSlice_spec {p p' : ByteBlockPool} {a a' : ByteBlockAllocator} {size upto : Nat}
    (hp : WF p) (ha : a.AllZero) (hpos : 0 < size) (hsize : size ≤ byteBlockSize)
    (h : p.newSlice a size = some (upto, p', a')) :
    ∃ q, Grown p q ∧ a'.AllZero ∧ q.byteUpto + size ≤ byteBlockSize ∧ q.buffers ≠ [] ∧
      Taken q p' size ∧ upto + p'.byteOffset = q.top ∧
      p'.mem = Function.update q.mem (q.top + size - 1) 16 := by
  unfold newSlice at h
  cases hroom : p.makeRoom a size with
  | none => simp [hroom] at h
  | some pa =>
      obtain ⟨q, a₁⟩ := pa
      obtain ⟨hg, ha₁, hfits, hne⟩ := makeRoom_spec hp ha hpos hsize hroom
      simp only [hroom, Option.bind_eq_bind, Option.bind_some, Option.pure_def,
        Option.some.injEq, Prod.mk.injEq] at h
      obtain ⟨rfl, rfl, rfl⟩ := h
      have htop := byteOffset_add_byteUpto hne
      have hmem : ((q.take size).put q.bufferUpto (q.byteUpto + size - 1) 16).mem =
          Function.update q.mem (q.top + size - 1) 16 := by
        rw [mem_put (q.take size) _ (show q.bufferUpto < (q.take size).buffers.length from bufferUpto_lt hne)
          (by omega), mem_take]
        congr 1
        rw [← htop, byteOffset]
        omega
      refine ⟨q, hg, ha₁, hfits, hne, ⟨rfl, by simp, fun x hx => ?_⟩, ?_, hmem⟩
      · rw [bufferUpto_take, byteUpto_take, hmem, Function.update_of_ne (by omega)]
      · rw [← htop, Nat.add_comm, byteOffset_put, byteOffset_take]

@[simp] theorem length_linkSlice (p : ByteBlockPool) (slice upto newLevel : Nat) :
    (p.linkSlice slice upto newLevel).buffers.length = p.buffers.length := by
  simp only [linkSlice, length_put, buffers_take]

@[simp] theorem byteUpto_linkSlice (p : ByteBlockPool) (slice upto newLevel : Nat) :
    (p.linkSlice slice upto newLevel).byteUpto = p.byteUpto + levelSize newLevel := by
  simp only [linkSlice, byteUpto_put, byteUpto_take]

@[simp] theorem bufferUpto_linkSlice (p : ByteBlockPool) (slice upto newLevel : Nat) :
    (p.linkSlice slice upto newLevel).bufferUpto = p.bufferUpto := by
  rw [bufferUpto, length_linkSlice, bufferUpto]

/-- The writes of `allocSlice` in terms of addresses: `last` is the end of the full slice. -/
theorem mem_linkSlice {p : ByteBlockPool} {last newLevel : Nat} (hne : p.buffers ≠ [])
    (hlast : last < p.capacity) (hblock : 3 ≤ last % byteBlockSize)
    (hfits : p.byteUpto + levelSize newLevel ≤ byteBlockSize) :
    (p.linkSlice (last / byteBlockSize) (last % byteBlockSize) newLevel).mem =
      SliceChain.allocated p.mem last p.top newLevel := by
  have hsize := levelSize_bounds newLevel
  have htop := byteOffset_add_byteUpto hne
  have hbuf := bufferUpto_lt hne
  have hmod := Nat.mod_lt last (show 0 < byteBlockSize by decide)
  have hslice : last / byteBlockSize < p.buffers.length := by
    rw [Nat.div_lt_iff_lt_mul (by decide)]
    exact hlast
  have hold : ∀ k ≤ 3,
      last / byteBlockSize * byteBlockSize + (last % byteBlockSize - k) = last - k := by
    intro k hk
    have := Nat.div_add_mod' last byteBlockSize
    omega
  have hputOld : ∀ {q : ByteBlockPool} {m : SliceChain.Mem} {b b' : UInt8} (k : Nat),
      k ≤ 3 → q.buffers.length = p.buffers.length → q.mem = m → b = b' →
      (q.put (last / byteBlockSize) (last % byteBlockSize - k) b).mem =
        Function.update m (last - k) b' := by
    rintro q m b b' k hk hq rfl rfl
    rw [mem_put q b (by omega) (by omega), hold k hk]
  have hputNew : ∀ {q : ByteBlockPool} {m : SliceChain.Mem} {b b' : UInt8} (offset addr : Nat),
      offset < byteBlockSize → p.byteOffset + offset = addr → q.buffers.length = p.buffers.length →
      q.mem = m → b = b' → (q.put p.bufferUpto offset b).mem = Function.update m addr b' := by
    rintro q m b b' offset addr hoffset rfl hq rfl rfl
    rw [mem_put q b (by omega) hoffset, byteOffset]
  have hgetOld : ∀ {q : ByteBlockPool} {m : SliceChain.Mem} (k : Nat), k ≤ 3 → q.mem = m →
      q.get (last / byteBlockSize) (last % byteBlockSize - k) = m (last - k) := by
    rintro q m k hk rfl
    rw [get_eq_mem q (by omega), hold k hk]
  have haddr : p.byteUpto + p.byteOffset = p.top := by omega
  simp only [linkSlice, SliceChain.allocated, byteUpto_put, byteUpto_take, haddr]
  have h₀ : (p.take (levelSize newLevel)).mem = p.mem := rfl
  have h₁ := hputNew _ _ (by omega) htop rfl h₀ (hgetOld 3 le_rfl h₀)
  have h₂ := hputNew (p.byteUpto + 1) (p.top + 1) (by omega) (by omega) (length_put _ _ _ _) h₁
    (hgetOld 2 (by omega) h₁)
  have h₃ := hputNew (p.byteUpto + 2) (p.top + 2) (by omega) (by omega) (by simp) h₂
    (hgetOld 1 (by omega) h₂)
  have h₄ := hputOld 3 le_rfl (by simp) h₃ (rfl : UInt8.ofNat (p.top / 2 ^ 24) = _)
  have h₅ := hputOld 2 (by omega) (by simp) h₄ (rfl : UInt8.ofNat (p.top / 2 ^ 16) = _)
  have h₆ := hputOld 1 (by omega) (by simp) h₅ (rfl : UInt8.ofNat (p.top / 2 ^ 8) = _)
  have h₇ := hputOld 0 (by omega) (by simp) h₆ (rfl : UInt8.ofNat p.top = _)
  exact hputNew (p.byteUpto + levelSize newLevel - 1) (p.top + levelSize newLevel - 1) (by omega)
    (by omega) (by simp) h₇ rfl

/-- `allocSlice` on the full slice that ends at `last`, the address its writer stands on. -/
theorem allocSlice_spec {p p' : ByteBlockPool} {a a' : ByteBlockAllocator} {last newUpto : Nat}
    (hp : WF p) (ha : a.AllZero) (hlast : last < p.top) (hblock : 3 ≤ last % byteBlockSize)
    (h : p.allocSlice a (last / byteBlockSize) (last % byteBlockSize) = some (newUpto, p', a')) :
    ∃ q newLevel, newLevel = nextLevel ((p.mem last).toNat % 16) ∧ Grown p q ∧ a'.AllZero ∧
      q.buffers ≠ [] ∧ q.byteUpto + levelSize newLevel ≤ byteBlockSize ∧
      Taken q p' (levelSize newLevel) ∧ newUpto = q.byteUpto + 3 ∧ p'.bufferUpto = q.bufferUpto ∧
      p'.mem = SliceChain.allocated q.mem last q.top newLevel := by
  have hsize := levelSize_nextLevel_ge ((p.mem last).toNat % 16)
  have hsize' := levelSize_bounds (nextLevel ((p.mem last).toNat % 16))
  have hS : 200 ≤ byteBlockSize := by decide
  unfold allocSlice at h
  cases hroom : p.makeRoom a (levelSize (nextLevel ((p.mem last).toNat % 16))) with
  | none =>
      change p.makeRoom a _ >>= _ = _ at h
      rw [show (p.get (last / byteBlockSize) (last % byteBlockSize)) = p.mem last from rfl, hroom] at h
      cases h
  | some pa =>
      obtain ⟨q, a₁⟩ := pa
      obtain ⟨hg, ha₁, hfits, hne⟩ := makeRoom_spec hp ha (by omega) (by omega) hroom
      change p.makeRoom a _ >>= _ = _ at h
      rw [show (p.get (last / byteBlockSize) (last % byteBlockSize)) = p.mem last from rfl, hroom] at h
      simp only [Option.bind_eq_bind, Option.bind_some, Option.pure_def,
        Option.some.injEq, Prod.mk.injEq] at h
      obtain ⟨rfl, rfl, rfl⟩ := h
      have hmem := mem_linkSlice hne
        ((hlast.trans_le hg.top_le).trans_le (top_le_capacity hg.wf)) hblock hfits
      refine ⟨q, _, rfl, hg, ha₁, hne, hfits, ⟨byteUpto_linkSlice _ _ _ _, ?_, ?_⟩, rfl,
        bufferUpto_linkSlice _ _ _ _, hmem⟩
      · rw [capacity, length_linkSlice, capacity]
      · intro x hx
        rw [hmem]
        have := hg.top_le
        exact SliceChain.allocated_of_ne hsize (by omega) (by omega) (by omega)

theorem mem_put_address {p : ByteBlockPool} {x : Nat} (b : UInt8) (hx : x < p.capacity) :
    (p.put (x / byteBlockSize) (x % byteBlockSize) b).mem = Function.update p.mem x b := by
  rw [mem_put p b ((Nat.div_lt_iff_lt_mul (by decide)).mpr hx) (Nat.mod_lt _ (by decide)),
    Nat.div_add_mod']

theorem WF.put {p : ByteBlockPool} {x buffer offset : Nat} {b : UInt8} (hp : WF p) (hx : x < p.top)
    (hmem : (p.put buffer offset b).mem = Function.update p.mem x b) : WF (p.put buffer offset b) where
  byteUpto_le := hp.byteUpto_le
  empty hnil := hp.empty (List.length_eq_zero_iff.mp (by
    rw [← length_put p buffer offset b, hnil, List.length_nil]))
  limit := by rw [capacity_put]; exact hp.limit
  fresh y h₁ h₂ := by
    rw [top_put] at h₁
    rw [capacity_put] at h₂
    rw [hmem, Function.update_of_ne (by omega), hp.fresh y h₁ h₂]

theorem reset_spec {p : ByteBlockPool} {a : ByteBlockAllocator} (hp : WF p) (ha : a.AllZero) :
    WF (p.reset a).1 ∧ (p.reset a).2.AllZero := by
  unfold reset
  cases hlast : p.buffers.getLast? with
  | none => exact ⟨hp, ha⟩
  | some last =>
      simp only
      have hne : p.buffers ≠ [] := by
        rintro hnil
        simp [hnil] at hlast
      generalize hz : (p.buffers.map fun b => b.fill byteBlockSize).dropLast ++
        [last.fill p.byteUpto] = zeroed
      have hzero : ∀ b ∈ zeroed, ∀ i < byteBlockSize, b i = 0 := by
        intro b hb i hi
        rw [← hz, List.mem_append] at hb
        rcases hb with hb | hb
        · obtain ⟨c, -, rfl⟩ := List.mem_map.mp (List.mem_of_mem_dropLast hb)
          exact if_pos hi
        · rw [List.mem_singleton] at hb
          subst hb
          rcases Nat.lt_or_ge i p.byteUpto with hlt | hge
          · exact if_pos hlt
          · have htop := byteOffset_add_byteUpto hne
            have hcap := byteOffset_add_byteBlockSize hne
            have hfresh := hp.fresh (p.byteOffset + i) (by omega) (by omega)
            rw [byteOffset, ← get_eq_mem p hi, get, List.getD_eq_getElem?_getD, bufferUpto,
              ← List.getLast?_eq_getElem?, hlast] at hfresh
            exact (if_neg (by omega)).trans hfresh
      obtain ⟨first, rest, rfl⟩ : ∃ first rest, zeroed = first :: rest := by
        cases zeroed with
        | nil => simp at hz
        | cons first rest => exact ⟨first, rest, rfl⟩
      have hcap : capacity ⟨[first], 0⟩ = byteBlockSize := Nat.one_mul _
      refine ⟨⟨Nat.zero_le _, by simp, ?_, fun x h₁ h₂ => ?_⟩, fun b hb => ?_⟩
      · rw [List.take_succ_cons, List.take_zero, hcap]
        decide
      · rw [List.take_succ_cons, List.take_zero] at h₂ ⊢
        rw [hcap] at h₂
        rw [mem, Nat.div_eq_of_lt h₂, Nat.mod_eq_of_lt h₂]
        exact hzero first List.mem_cons_self x h₂
      · rcases List.mem_append.mp hb with hb | hb
        · exact ha b hb
        · exact hzero b (List.mem_cons_of_mem _ hb)

end ByteBlockPool

namespace StreamPool
open ByteBlockPool SliceChain

/-- `owner` says which stream an address belongs to; each stream is a chain in its own addresses. -/
structure Inv (s : StreamPool) (owner : Nat → Option Nat) : Prop where
  wf : s.pool.WF
  owner_lt : ∀ x i, owner x = some i → x < s.pool.top
  chain : ∀ i st, s.streams[i]? = some st →
    ∃ slices, Chain s.pool.mem (fun x => owner x = some i) st.upto 0 st.start slices st.written

/-- The streams of the pool are chains in disjoint sets of addresses. -/
def Disjoint (s : StreamPool) : Prop := ∃ owner, s.Inv owner

theorem disjoint_empty : Disjoint StreamPool.empty := by
  refine ⟨fun _ => none, wf_empty, fun x i h => ?_, fun i st h => ?_⟩
  · cases h
  · simp [StreamPool.empty] at h

theorem Inv.grown {s : StreamPool} {owner : Nat → Option Nat} {q : ByteBlockPool} (h : s.Inv owner)
    (hg : Grown s.pool q) : Inv ⟨q, s.streams⟩ owner where
  wf := hg.wf
  owner_lt x i hx := (h.owner_lt x i hx).trans_le hg.top_le
  chain i st hst := by
    obtain ⟨slices, hchain⟩ := h.chain i st hst
    exact ⟨slices, hchain.frame (fun x hx => hg.mem_eq x (h.owner_lt x i hx)) fun _ hx => hx⟩

/-- The addresses from `a` up to `b` are given to stream `i`. -/
def giveTo (owner : Nat → Option Nat) (i a b : Nat) : Nat → Option Nat :=
  fun x => if a ≤ x ∧ x < b then some i else owner x

theorem giveTo_of_lt {owner : Nat → Option Nat} {i a b x : Nat} (h : x < a) :
    giveTo owner i a b x = owner x := if_neg (by omega)

theorem giveTo_of_mem {owner : Nat → Option Nat} {i a b x : Nat} (h₁ : a ≤ x) (h₂ : x < b) :
    giveTo owner i a b x = some i := if_pos ⟨h₁, h₂⟩

theorem giveTo_lt {owner : Nat → Option Nat} {i j a b x : Nat}
    (howner : ∀ x j, owner x = some j → x < a) (hab : a ≤ b) (h : giveTo owner i a b x = some j) :
    x < b := by
  unfold giveTo at h
  split at h
  · omega
  · have := howner x j h
    omega

theorem newStream_disjoint {s s' : StreamPool} {a a' : ByteBlockAllocator} (hs : s.Disjoint)
    (ha : a.AllZero) (h : s.newStream a = some (s', a')) :
    s'.Disjoint ∧ a'.AllZero ∧ ∃ start, s'.streams = s.streams ++ [⟨start, start, []⟩] := by
  obtain ⟨owner, hs⟩ := hs
  unfold newStream at h
  cases hslice : s.pool.newSlice a firstLevelSize with
  | none => simp [hslice] at h
  | some upa =>
      obtain ⟨upto, p, a₁⟩ := upa
      simp only [hslice, Option.bind_eq_bind, Option.bind_some, Option.pure_def,
        Option.some.injEq, Prod.mk.injEq] at h
      obtain ⟨rfl, rfl⟩ := h
      obtain ⟨q, hg, ha₁, hfits, hne, htaken, hstart, hmem⟩ :=
        newSlice_spec hs.wf ha (by decide) (by decide) hslice
      have hq := hs.grown hg
      have hsize : firstLevelSize = levelSize 0 := rfl
      have hbounds := levelSize_bounds 0
      rw [hstart]
      refine ⟨⟨giveTo owner s.streams.length q.top (q.top + firstLevelSize),
        htaken.wf hg.wf hne hfits, ?_, ?_⟩, ha₁, q.top, rfl⟩
      · intro x i hx
        rw [htaken.top_eq hne]
        exact giveTo_lt (fun x j hx => hq.owner_lt x j hx) (Nat.le_add_right _ _) hx
      · intro i st hst
        rcases Nat.lt_or_ge i s.streams.length with hi | hi
        · rw [List.getElem?_append_left hi] at hst
          obtain ⟨slices, hchain⟩ := hq.chain i st hst
          refine ⟨slices, hchain.frame (fun x hx => ?_) fun x hx => ?_⟩
          · have hlt : x < q.top := hq.owner_lt x i hx
            rw [hmem, Function.update_of_ne (by omega)]
          · rw [giveTo_of_lt (hq.owner_lt x i hx), hx]
        · rw [List.getElem?_append_right hi] at hst
          obtain ⟨hzero, rfl⟩ : i = s.streams.length ∧ st = ⟨q.top, q.top, []⟩ := by
            cases hk : i - s.streams.length with
            | zero => simp [hk] at hst; exact ⟨by omega, hst.symm⟩
            | succ k => simp [hk] at hst
          subst hzero
          refine ⟨[], ⟨fun x h₁ h₂ => giveTo_of_mem h₁ h₂, top_in_block hne (by decide) hfits⟩,
            le_rfl, ?_, ?_, ?_, ?_⟩
          · simp only; omega
          · simp
          · simp only
            rw [hmem, hsize, Function.update_self]
            rfl
          · intro x h₁ h₂
            have hcap := top_add_le_capacity hne hfits
            simp only at h₁ h₂
            rw [hmem, Function.update_of_ne (by omega)]
            exact hg.wf.fresh x h₁ (by omega)

theorem Inv.put {s : StreamPool} {owner : Nat → Option Nat} {i : Nat} {st : ByteStream}
    {buffer offset : Nat} {b : UInt8} (h : s.Inv owner) (hst : s.streams[i]? = some st)
    (hroom : s.pool.mem st.upto = 0)
    (hmem : (s.pool.put buffer offset b).mem = Function.update s.pool.mem st.upto b) :
    Inv ⟨s.pool.put buffer offset b,
      s.streams.set i ⟨st.start, st.upto + 1, st.written ++ [b]⟩⟩ owner := by
  obtain ⟨slices, hchain⟩ := h.chain i st hst
  have hown : owner st.upto = some i := hchain.own_upto
  refine ⟨h.wf.put (h.owner_lt _ i hown) hmem, fun x j hx => ?_, fun j st' hst' => ?_⟩
  · rw [top_put]
    exact h.owner_lt x j hx
  · rw [List.getElem?_set] at hst'
    split at hst'
    · rename_i hij
      subst hij
      split at hst'
      · cases hst'
        refine ⟨slices, ?_⟩
        rw [hmem]
        exact hchain.write (Nat.zero_le _) hroom b
      · cases hst'
    · rename_i hij
      obtain ⟨slices', hchain'⟩ := h.chain j st' hst'
      refine ⟨slices', hchain'.frame (fun x hx => ?_) fun _ hx => hx⟩
      rw [hmem, Function.update_of_ne]
      rintro rfl
      rw [hown] at hx
      exact hij (Option.some.inj hx)

theorem Inv.allocSlice {s : StreamPool} {owner : Nat → Option Nat} {i : Nat} {st : ByteStream}
    {a a' : ByteBlockAllocator} {newUpto : Nat} {p : ByteBlockPool} (h : s.Inv owner)
    (ha : a.AllZero) (hst : s.streams[i]? = some st) (hfull : s.pool.mem st.upto ≠ 0)
    (halloc : s.pool.allocSlice a (st.upto / byteBlockSize) (st.upto % byteBlockSize) =
      some (newUpto, p, a')) :
    a'.AllZero ∧ newUpto < byteBlockSize ∧ p.mem (newUpto + p.byteOffset) = 0 ∧
      newUpto + p.byteOffset < p.capacity ∧
      ∃ owner', Inv ⟨p, s.streams.set i ⟨st.start, newUpto + p.byteOffset, st.written⟩⟩ owner' := by
  obtain ⟨slices, hchain⟩ := h.chain i st hst
  obtain ⟨last, level, hslice, hlevel, hle, hlt, hmark, hzero⟩ :=
    hchain.upto_in_block (Nat.zero_le _)
  have hbounds := levelSize_bounds level
  have hend : st.upto = last + levelSize level - 1 := by
    by_contra hne
    exact hfull (hzero st.upto le_rfl (by omega))
  have hin := hslice.in_block
  have hblock : 3 ≤ st.upto % byteBlockSize := by
    unfold byteBlockSize at *
    omega
  have hlast : st.upto < s.pool.top := h.owner_lt _ i hchain.own_upto
  obtain ⟨q, newLevel, hnewLevel, hg, ha', hne, hfits, htaken, rfl, hbuf, hmem⟩ :=
    allocSlice_spec h.wf ha hlast hblock halloc
  have hsize : 14 ≤ levelSize newLevel := hnewLevel ▸ levelSize_nextLevel_ge _
  have hq := h.grown hg
  have hqtop := byteOffset_add_byteUpto hne
  have hnewUpto : q.byteUpto + 3 + p.byteOffset = q.top + 3 := by
    rw [byteOffset, hbuf, ← hqtop, byteOffset]
    omega
  have hcap := top_add_le_capacity hne hfits
  have hlimit := hg.wf.limit
  have htople := hg.top_le
  have hext : Extended q.mem (allocated q.mem st.upto q.top newLevel) (fun x => owner x = some i) _
      st.upto q.top newLevel :=
    extended_allocated hsize (by omega) (by omega) (by unfold addressLimit at hlimit; omega)
      (fun x hx => hq.owner_lt x i hx) (fun x h₁ h₂ => hg.wf.fresh x h₁ (by omega))
      (top_in_block hne (by omega) hfits)
  have hmemEq : q.mem st.upto = s.pool.mem st.upto := hg.mem_eq _ hlast
  rw [hnewUpto]
  refine ⟨ha', by omega, ?_, ?_, giveTo owner i q.top (q.top + levelSize newLevel),
    htaken.wf hg.wf hne hfits, ?_, ?_⟩
  · rw [hmem]
    exact hext.zero _ le_rfl (by omega)
  · rw [htaken.capacity_eq]
    omega
  · intro x j hx
    rw [htaken.top_eq hne]
    exact giveTo_lt (fun x j hx => hq.owner_lt x j hx) (Nat.le_add_right _ _) hx
  · intro j st' hst'
    rw [hmem]
    rw [List.getElem?_set] at hst'
    split at hst'
    · rename_i hij
      subst hij
      split at hst'
      · cases hst'
        obtain ⟨slices', hchain'⟩ := hq.chain i st hst
        rw [← hmemEq] at hfull hnewLevel
        rw [hnewLevel] at hext ⊢
        refine ⟨slices' ++ [q.top],
          (hchain'.extend (Nat.zero_le _) hfull hext).frame (fun _ _ => rfl) fun x hx => ?_⟩
        rcases hx with hx | ⟨h₁, h₂⟩
        · rw [giveTo_of_lt (hq.owner_lt x i hx), hx]
        · exact giveTo_of_mem h₁ h₂
      · cases hst'
    · rename_i hij
      obtain ⟨slices', hchain'⟩ := hq.chain j st' hst'
      refine ⟨slices', hchain'.frame (fun x hx => ?_) fun x hx => ?_⟩
      · have hlt : x < q.top := hq.owner_lt x j hx
        refine allocated_of_ne hsize ?_ (by omega) (by omega)
        by_contra hnear
        have hown : owner x = some i := hslice.owned x (by omega) (by omega)
        rw [hx] at hown
        exact hij (Option.some.inj hown).symm
      · rw [giveTo_of_lt (hq.owner_lt x j hx), hx]

/-- What an operation on stream `i` does to the streams: it appends `bytes` to this one. -/
structure Appended (s s' : StreamPool) (i : Nat) (bytes : List UInt8) : Prop where
  length_eq : s'.streams.length = s.streams.length
  same : ∀ j, j ≠ i → s'.streams[j]? = s.streams[j]?
  appended : ∀ st, s.streams[i]? = some st → ∃ st', s'.streams[i]? = some st' ∧
    st'.start = st.start ∧ st'.written = st.written ++ bytes

theorem Appended.refl (s : StreamPool) (i : Nat) : Appended s s i [] :=
  ⟨rfl, fun _ _ => rfl, fun st h => ⟨st, h, rfl, (List.append_nil _).symm⟩⟩

theorem Appended.trans {s₁ s₂ s₃ : StreamPool} {i : Nat} {bytes₁ bytes₂ : List UInt8}
    (h₁ : Appended s₁ s₂ i bytes₁) (h₂ : Appended s₂ s₃ i bytes₂) :
    Appended s₁ s₃ i (bytes₁ ++ bytes₂) := by
  refine ⟨h₂.length_eq.trans h₁.length_eq, fun j hj => (h₂.same j hj).trans (h₁.same j hj), ?_⟩
  intro st hst
  obtain ⟨st', hst', hstart', hwritten'⟩ := h₁.appended st hst
  obtain ⟨st'', hst'', hstart'', hwritten''⟩ := h₂.appended st' hst'
  refine ⟨st'', hst'', hstart''.trans hstart', ?_⟩
  rw [hwritten'', hwritten', List.append_assoc]

theorem appended_set {s : StreamPool} {i : Nat} {st : ByteStream} {p : ByteBlockPool} {upto : Nat}
    {bytes : List UInt8} (hst : s.streams[i]? = some st) :
    Appended s ⟨p, s.streams.set i ⟨st.start, upto, st.written ++ bytes⟩⟩ i bytes := by
  refine ⟨List.length_set, fun j hj => List.getElem?_set_ne hj.symm, fun st' hst' => ?_⟩
  rw [hst] at hst'
  cases hst'
  have hi := (List.getElem?_eq_some_iff.mp hst).1
  exact ⟨_, List.getElem?_set_self hi, rfl, rfl⟩

theorem writeByte_disjoint {s s' : StreamPool} {a a' : ByteBlockAllocator} {i : Nat} {b : UInt8}
    (hs : s.Disjoint) (ha : a.AllZero) (h : s.writeByte a i b = some (s', a')) :
    s'.Disjoint ∧ a'.AllZero ∧ Appended s s' i [b] := by
  obtain ⟨owner, hs⟩ := hs
  unfold writeByte at h
  cases hst : s.streams[i]? with
  | none => simp [hst] at h
  | some st =>
      simp only [hst, Option.bind_eq_bind, Option.bind_some, Option.pure_def] at h
      split at h
      · rename_i hfull
        cases halloc : s.pool.allocSlice a (st.upto / byteBlockSize) (st.upto % byteBlockSize) with
        | none => simp [halloc] at h
        | some upa =>
            obtain ⟨newUpto, p, a₁⟩ := upa
            obtain ⟨ha', hin, hzero, hcap, owner', hs'⟩ := hs.allocSlice ha hst hfull halloc
            simp only [halloc, Option.bind_some, Option.some.injEq, Prod.mk.injEq] at h
            obtain ⟨rfl, rfl⟩ := h
            have hi := (List.getElem?_eq_some_iff.mp hst).1
            have hmem : (p.put p.bufferUpto newUpto b).mem =
                Function.update p.mem (newUpto + p.byteOffset) b := by
              have hbuf : p.bufferUpto < p.buffers.length := by
                apply bufferUpto_lt
                rintro hnil
                rw [capacity, hnil, List.length_nil, Nat.zero_mul] at hcap
                omega
              rw [mem_put p b hbuf hin, byteOffset, Nat.add_comm]
            have hput := hs'.put (List.getElem?_set_self hi) hzero hmem
            simp only [List.set_set] at hput
            exact ⟨⟨owner', hput⟩, ha', appended_set hst⟩
      · rename_i hroom
        simp only [Option.some.injEq, Prod.mk.injEq] at h
        obtain ⟨rfl, rfl⟩ := h
        obtain ⟨slices, hchain⟩ := hs.chain i st hst
        have hlt := (hs.owner_lt _ i hchain.own_upto).trans_le (top_le_capacity hs.wf)
        exact ⟨⟨owner, hs.put hst (not_not.mp hroom) (mem_put_address b hlt)⟩, ha, appended_set hst⟩

theorem writeBytes_disjoint {s s' : StreamPool} {a a' : ByteBlockAllocator} {i : Nat}
    {bytes : List UInt8} (hs : s.Disjoint) (ha : a.AllZero)
    (h : s.writeBytes a i bytes = some (s', a')) :
    s'.Disjoint ∧ a'.AllZero ∧ Appended s s' i bytes := by
  induction bytes generalizing s a with
  | nil =>
      simp only [writeBytes, Option.some.injEq, Prod.mk.injEq] at h
      obtain ⟨rfl, rfl⟩ := h
      exact ⟨hs, ha, .refl s i⟩
  | cons b bytes ih =>
      cases hb : s.writeByte a i b with
      | none => simp [writeBytes, hb] at h
      | some sa =>
          obtain ⟨s₁, a₁⟩ := sa
          obtain ⟨hs₁, ha₁, happ₁⟩ := writeByte_disjoint hs ha hb
          simp only [writeBytes, hb, Option.bind_eq_bind, Option.bind_some] at h
          obtain ⟨hs', ha', happ⟩ := ih hs₁ ha₁ h
          exact ⟨hs', ha', happ₁.trans happ⟩

theorem writeVInt_eq (s : StreamPool) (a : ByteBlockAllocator) (i n : Nat) :
    s.writeVInt a i n = s.writeBytes a i (VarInt.encode n) := by
  induction n using Nat.strongRecOn generalizing s a with
  | _ n ih =>
      rw [writeVInt]
      split
      · rename_i hlt
        rw [VarInt.encode_of_lt hlt, writeBytes]
        cases s.writeByte a i (UInt8.ofNat n) <;> rfl
      · rename_i hge
        rw [VarInt.encode_of_ge (by omega), writeBytes]
        congr 1
        funext sa
        exact ih (n / 128) (by omega) sa.1 sa.2

theorem nextBuffer_disjoint {s : StreamPool} {p : ByteBlockPool} {a a' : ByteBlockAllocator}
    (hs : s.Disjoint) (ha : a.AllZero) (h : s.pool.nextBuffer a = some (p, a')) :
    Disjoint ⟨p, s.streams⟩ ∧ a'.AllZero := by
  obtain ⟨owner, hs⟩ := hs
  obtain ⟨hg, ha', -⟩ := nextBuffer_spec hs.wf ha h
  exact ⟨⟨owner, hs.grown hg⟩, ha'⟩

theorem reset_disjoint {s : StreamPool} {a : ByteBlockAllocator} (hs : s.Disjoint)
    (ha : a.AllZero) : (s.reset a).1.Disjoint ∧ (s.reset a).2.AllZero := by
  obtain ⟨owner, hs⟩ := hs
  obtain ⟨hwf, ha'⟩ := reset_spec hs.wf ha
  refine ⟨⟨fun _ => none, hwf, fun x i h => ?_, fun i st h => ?_⟩, ha'⟩
  · cases h
  · simp [StreamPool.reset] at h

end StreamPool

namespace PoolState

/-- The free blocks are zeroed and the streams of every pool are disjoint chains. -/
structure Sound (s : PoolState) : Prop where
  allZero : s.allocator.AllZero
  disjoint : ∀ k, (s.pools k).Disjoint

theorem sound_init : Sound init where
  allZero b h := by cases h
  disjoint _ := StreamPool.disjoint_empty

theorem apply_disjoint {s s' : StreamPool} {a a' : ByteBlockAllocator} {op : PoolOp}
    (hs : s.Disjoint) (ha : a.AllZero) (h : apply s a op = some (s', a')) :
    s'.Disjoint ∧ a'.AllZero := by
  cases op with
  | newSlice =>
      obtain ⟨hs', ha', -⟩ := StreamPool.newStream_disjoint hs ha h
      exact ⟨hs', ha'⟩
  | nextBuffer =>
      obtain ⟨⟨p, a₁⟩, hnext, heq⟩ := Option.map_eq_some_iff.mp h
      cases heq
      exact StreamPool.nextBuffer_disjoint hs ha hnext
  | writeByte stream b =>
      obtain ⟨hs', ha', -⟩ := StreamPool.writeByte_disjoint hs ha h
      exact ⟨hs', ha'⟩
  | writeBytes stream bytes =>
      obtain ⟨hs', ha', -⟩ := StreamPool.writeBytes_disjoint hs ha h
      exact ⟨hs', ha'⟩
  | writeVInt stream i =>
      rw [apply, StreamPool.writeVInt_eq] at h
      obtain ⟨hs', ha', -⟩ := StreamPool.writeBytes_disjoint hs ha h
      exact ⟨hs', ha'⟩
  | reset =>
      cases h
      exact StreamPool.reset_disjoint hs ha
  | freeBlock =>
      cases h
      exact ⟨hs, fun b hb => ha b (List.mem_of_mem_dropLast hb)⟩

theorem step_cases {s s' : PoolState} {k : Nat} {op : PoolOp} (h : s.step k op = some s') :
    ∃ sp a, apply (s.pools k) s.allocator op = some (sp, a) ∧
      s' = ⟨a, Function.update s.pools k sp⟩ := by
  obtain ⟨⟨sp, a⟩, happly, heq⟩ := Option.map_eq_some_iff.mp h
  exact ⟨sp, a, happly, heq.symm⟩

theorem Sound.step {s s' : PoolState} {k : Nat} {op : PoolOp} (hs : s.Sound)
    (h : s.step k op = some s') : s'.Sound := by
  obtain ⟨sp, a, happly, rfl⟩ := step_cases h
  obtain ⟨hsp, ha⟩ := apply_disjoint (hs.disjoint k) hs.allZero happly
  refine ⟨ha, fun j => ?_⟩
  rcases eq_or_ne j k with rfl | hj
  · simpa only [Function.update_self] using hsp
  · simpa only [Function.update_of_ne hj] using hs.disjoint j

theorem Sound.run {s s' : PoolState} {ops : List (Nat × PoolOp)} (hs : s.Sound)
    (h : s.run ops = some s') : s'.Sound :=
  Runs.run_invariant (fun _ _ _ hs hstep => hs.step hstep) hs h

/-! ### What a run writes

The bytes of each stream of a pool, read off the operations alone. -/

/-- The effect of one operation on the contents of the streams of its pool. -/
def opContents (contents : List (List UInt8)) : PoolOp → List (List UInt8)
  | .newSlice => contents ++ [[]]
  | .writeByte stream b => contents.modify stream (· ++ [b])
  | .writeBytes stream bytes => contents.modify stream (· ++ bytes)
  | .writeVInt stream i => contents.modify stream (· ++ VarInt.encode i)
  | .reset => []
  | .nextBuffer | .freeBlock => contents

/-- The contents of the streams of pool `k` after `ops`, from `contents` on. -/
def contentsAfter (k : Nat) (contents : List (List UInt8)) (ops : List (Nat × PoolOp)) :
    List (List UInt8) :=
  ops.foldl (fun contents (j, op) => if j = k then opContents contents op else contents) contents

theorem contents_of_appended {s s' : StreamPool} {i : Nat} {bytes : List UInt8}
    (h : StreamPool.Appended s s' i bytes) :
    s'.streams.map ByteStream.written = (s.streams.map ByteStream.written).modify i (· ++ bytes) := by
  apply List.ext_getElem?
  intro j
  rw [List.getElem?_map, List.getElem?_modify, List.getElem?_map]
  rcases eq_or_ne j i with rfl | hj
  · cases hst : s.streams[j]? with
    | none =>
        have hlen := h.length_eq
        rw [List.getElem?_eq_none_iff, ← hlen] at hst
        rw [List.getElem?_eq_none_iff.mpr hst]
        rfl
    | some st =>
        obtain ⟨st', hst', -, hwritten⟩ := h.appended st hst
        simp [hst', hwritten]
  · rw [h.same j hj]
    simp [Ne.symm hj]

theorem apply_contents {s s' : StreamPool} {a a' : ByteBlockAllocator} {op : PoolOp}
    (hs : s.Disjoint) (ha : a.AllZero) (h : apply s a op = some (s', a')) :
    s'.streams.map ByteStream.written = opContents (s.streams.map ByteStream.written) op := by
  cases op with
  | newSlice =>
      obtain ⟨-, -, start, hstreams⟩ := StreamPool.newStream_disjoint hs ha h
      rw [hstreams, List.map_append]
      rfl
  | nextBuffer =>
      obtain ⟨⟨p, a₁⟩, -, heq⟩ := Option.map_eq_some_iff.mp h
      cases heq
      rfl
  | writeByte stream b =>
      obtain ⟨-, -, happ⟩ := StreamPool.writeByte_disjoint hs ha h
      exact contents_of_appended happ
  | writeBytes stream bytes =>
      obtain ⟨-, -, happ⟩ := StreamPool.writeBytes_disjoint hs ha h
      exact contents_of_appended happ
  | writeVInt stream i =>
      rw [apply, StreamPool.writeVInt_eq] at h
      obtain ⟨-, -, happ⟩ := StreamPool.writeBytes_disjoint hs ha h
      exact contents_of_appended happ
  | reset =>
      cases h
      rfl
  | freeBlock =>
      cases h
      rfl

theorem run_contents {s s' : PoolState} {ops : List (Nat × PoolOp)} (hs : s.Sound)
    (h : s.run ops = some s') (k : Nat) :
    (s'.pools k).streams.map ByteStream.written =
      contentsAfter k ((s.pools k).streams.map ByteStream.written) ops := by
  induction ops generalizing s with
  | nil => rw [← Option.some.inj h]; rfl
  | cons jop ops ih =>
      obtain ⟨j, op⟩ := jop
      obtain ⟨s₁, hstep, hrest⟩ := Runs.run_cons_eq_some.mp h
      rw [ih (hs.step hstep) hrest, contentsAfter, contentsAfter, List.foldl_cons]
      congr 1
      obtain ⟨sp, a, happly, rfl⟩ := step_cases hstep
      by_cases hjk : j = k
      · subst hjk
        simp only [Function.update_self, if_true]
        exact apply_contents (hs.disjoint j) hs.allZero happly
      · simp only [Function.update_of_ne (Ne.symm hjk), if_neg hjk]

end PoolState
end LucenePlusPlus
