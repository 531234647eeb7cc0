import LucenePlusPlus.TermsHashPerField

/-!
The table of the postings of a field keeps every posting where a search for its text finds it.
-/

namespace LucenePlusPlus
open UTF8Base WChar OpenAddressing
open DictionaryOrder (CHAR_BLOCK_SIZE stored replaceTerminator)

variable {text text' tokenText : WString} {textStart : Int}

namespace TermsHashPerField

variable {e : Nat}

/-- The slots at which a text is looked for. -/
def path (mask : Nat) (text : WString) (k : Nat) : Nat := hashPos mask ((· + inc (hashCode text))^[k] (hashCode text))

theorem hashPos_eq (he : e ≤ 32) (code : BitVec 32) : hashPos (2 ^ e - 1) code = code.toNat % 2 ^ e := by
  have hlt : 2 ^ e - 1 < 2 ^ 32 := by
    have hle : 2 ^ e ≤ 2 ^ 32 := Nat.pow_le_pow_right (by decide) he
    have hpos := Nat.two_pow_pos e
    omega
  rw [hashPos, BitVec.toNat_and, BitVec.toNat_ofNat, Nat.mod_eq_of_lt hlt, Nat.and_two_pow_sub_one_eq_mod]

theorem toNat_iterate (he : e ≤ 32) (code d : BitVec 32) (k : Nat) :
    ((· + d)^[k] code).toNat % 2 ^ e = (code.toNat + k * d.toNat) % 2 ^ e := by
  have hdvd : 2 ^ e ∣ 2 ^ 32 := Nat.pow_dvd_pow 2 he
  induction k with
  | zero => simp
  | succ k ih =>
      rw [Function.iterate_succ_apply', BitVec.toNat_add, Nat.mod_mod_of_dvd _ hdvd, Nat.add_mod, ih, ← Nat.add_mod]
      congr 1
      ring

theorem coprime_inc (e : Nat) (code : BitVec 32) : (2 ^ e).Coprime (inc code).toNat := by
  refine Nat.Coprime.pow_left e ((Nat.coprime_two_left).mpr ?_)
  rw [inc, BitVec.toNat_or, Nat.odd_iff]
  have hone : (1#32).toNat = 1 := rfl
  rw [hone]
  simp

theorem covers_path (he : e ≤ 32) (text : WString) : Covers (path (2 ^ e - 1) text) (2 ^ e) := by
  have hpath : path (2 ^ e - 1) text =
      fun k => ((hashCode text).toNat + k * (inc (hashCode text)).toNat) % 2 ^ e := by
    funext k
    rw [path, hashPos_eq he, toNat_iterate he]
  rw [hpath]
  exact covers_of_coprime (coprime_inc e _) (Nat.two_pow_pos e) _

end TermsHashPerField

/-- The cells from `pos` on hold the text and its terminator. -/
def HasText (cells : Nat → WChar) (pos : Nat) (text : WString) : Prop :=
  ∀ i c, (stored text)[i]? = some c → cells (pos + i) = c

section
variable {cells : Nat → WChar} {pos : Nat}

theorem HasText.nil (h : HasText cells pos []) : cells pos = UNICODE_TERMINATOR := h 0 _ rfl

theorem HasText.cons {ch : WChar} (h : HasText cells pos (ch :: text)) :
    cells pos = ch ∧ HasText cells (pos + 1) text := by
  refine ⟨h 0 ch rfl, fun i c hc => ?_⟩
  rw [Nat.add_assoc, Nat.add_comm 1]
  exact h (i + 1) c hc

theorem untilTerminator_eq (h : HasText cells pos text) (hterm : UNICODE_TERMINATOR ∉ text) {n : Nat}
    (hn : text.length < n) : CharBlockPool.untilTerminator cells n pos = text := by
  induction text generalizing pos n with
  | nil =>
      cases n with
      | zero => exact absurd hn (Nat.not_lt_zero _)
      | succ n => rw [CharBlockPool.untilTerminator, if_pos h.nil]
  | cons ch text ih =>
      obtain ⟨hch, htext⟩ := h.cons
      obtain ⟨hne, hterm⟩ := not_or.mp (List.mem_cons.not.mp hterm)
      cases n with
      | zero => exact absurd hn (Nat.not_lt_zero _)
      | succ n =>
          rw [CharBlockPool.untilTerminator, hch, if_neg (Ne.symm hne), ih htext hterm (Nat.lt_of_succ_lt_succ hn)]

theorem postingEquals_eq (h : HasText cells pos text) (hterm : UNICODE_TERMINATOR ∉ text)
    (hterm' : UNICODE_TERMINATOR ∉ text') :
    TermsHashPerField.postingEquals cells pos text' = true ↔ text = text' := by
  induction text' generalizing text pos with
  | nil =>
      rw [TermsHashPerField.postingEquals, decide_eq_true_iff]
      cases text with
      | nil => exact iff_of_true h.nil rfl
      | cons ch text =>
          rw [h.cons.1]
          exact iff_of_false (fun heq => hterm (heq ▸ List.mem_cons_self)) nofun
  | cons ch' text' ih =>
      obtain ⟨hne', hterm'⟩ := not_or.mp (List.mem_cons.not.mp hterm')
      rw [TermsHashPerField.postingEquals]
      cases text with
      | nil =>
          rw [h.nil, if_pos (Ne.symm hne')]
          exact iff_of_false nofun nofun
      | cons ch text =>
          obtain ⟨hch, htext⟩ := h.cons
          obtain ⟨hne, hterm⟩ := not_or.mp (List.mem_cons.not.mp hterm)
          rw [hch, List.cons.injEq]
          split
          · rename_i hdiff
            exact iff_of_false nofun fun heq => hdiff heq.1.symm
          · rename_i hsame
            rw [ih htext hterm hterm', and_iff_right (not_not.mp hsame).symm]

theorem hasText_write (cells : Nat → WChar) (pos : Nat) (text : WString) :
    HasText (CharBlockPool.write cells pos (stored text)) pos text := by
  intro i c hc
  rw [CharBlockPool.write, if_pos (Nat.le_add_right pos i), Nat.add_sub_cancel_left, hc]
  rfl

theorem write_of_lt (cells : Nat → WChar) (chars : List WChar) {i : Nat} (h : i < pos) :
    CharBlockPool.write cells pos chars i = cells i := by
  rw [CharBlockPool.write, if_neg (Nat.not_le.mpr h)]

end

namespace CharBlockPool

variable {pool pool' : CharBlockPool}

@[simp] theorem put_bufferUpto (pool : CharBlockPool) (tokenText : WString) :
    (pool.put tokenText).bufferUpto = pool.bufferUpto := rfl

@[simp] theorem put_charUpto (pool : CharBlockPool) (tokenText : WString) :
    (pool.put tokenText).charUpto = pool.charUpto + (1 + tokenText.length) := rfl

structure Inv (pool : CharBlockPool) : Prop where
  charOffset_eq : pool.charOffset = pool.bufferUpto * CHAR_BLOCK_SIZE
  neg_one_le : -1 ≤ pool.bufferUpto
  charUpto_le : pool.charUpto ≤ CHAR_BLOCK_SIZE
  full_of_none : pool.bufferUpto = -1 → pool.charUpto = CHAR_BLOCK_SIZE

/-- The text is in a block at its place, below what is written next. -/
structure Holds (pool : CharBlockPool) (textStart : Int) (text : WString) : Prop where
  fits : blockPos textStart + (1 + text.length) ≤ CHAR_BLOCK_SIZE
  below : textStart / CHAR_BLOCK_SIZE < pool.bufferUpto ∨
    textStart / CHAR_BLOCK_SIZE = pool.bufferUpto ∧ blockPos textStart + (1 + text.length) ≤ pool.charUpto
  hasText : HasText (pool.block textStart) (blockPos textStart) text

theorem Holds.text_eq (h : pool.Holds textStart text) (hterm : UNICODE_TERMINATOR ∉ text) :
    pool.text textStart = text :=
  untilTerminator_eq h.hasText hterm (by have := h.fits; omega)

theorem inv_empty (buffers : Int → Nat → WChar) : (empty buffers).Inv where
  charOffset_eq := by rw [empty, neg_one_mul]
  neg_one_le := le_rfl
  charUpto_le := le_rfl
  full_of_none _ := rfl

theorem nextBuffer_spec (hinv : pool.Inv) (h : pool.nextBuffer = some pool') :
    pool'.Inv ∧ 0 ≤ pool'.bufferUpto ∧ pool'.charUpto = 0 ∧
      ∀ {textStart text}, pool.Holds textStart text → pool'.Holds textStart text := by
  rw [nextBuffer] at h
  split at h
  · cases h
    refine ⟨⟨?_, ?_, Nat.zero_le _, ?_⟩, ?_, rfl, fun hholds => ⟨hholds.fits, Or.inl ?_, hholds.hasText⟩⟩
    · rw [hinv.charOffset_eq]
      ring
    · exact hinv.neg_one_le.trans (Int.le_add_one le_rfl)
    · intro hnone
      have := hinv.neg_one_le
      dsimp only at hnone
      omega
    · have := hinv.neg_one_le
      dsimp only
      omega
    · dsimp only
      rcases hholds.below with hlt | ⟨heq, -⟩ <;> omega
  · cases h

theorem put_spec (tokenText : WString) (hinv : pool.Inv) (hupto : 0 ≤ pool.bufferUpto)
    (hfits : 1 + tokenText.length + pool.charUpto ≤ CHAR_BLOCK_SIZE) :
    (pool.put tokenText).Inv ∧ (pool.put tokenText).Holds (pool.charUpto + pool.charOffset) tokenText ∧
      ∀ {textStart text}, pool.Holds textStart text → (pool.put tokenText).Holds textStart text := by
  have hsize : (0 : Int) < CHAR_BLOCK_SIZE := by decide
  have hlt : (pool.charUpto : Int) < CHAR_BLOCK_SIZE := by omega
  have hdiv : ((pool.charUpto : Int) + pool.charOffset) / CHAR_BLOCK_SIZE = pool.bufferUpto := by
    rw [hinv.charOffset_eq, Int.add_mul_ediv_right _ _ hsize.ne', Int.ediv_eq_zero_of_lt (by omega) hlt, zero_add]
  have hpos : blockPos (pool.charUpto + pool.charOffset) = pool.charUpto := by
    rw [blockPos, hinv.charOffset_eq, Int.add_mul_emod_self_right, Int.emod_eq_of_lt (by omega) hlt]
    rfl
  refine ⟨⟨hinv.charOffset_eq, hinv.neg_one_le, ?_, ?_⟩, ⟨?_, Or.inr ⟨hdiv, ?_⟩, ?_⟩, ?_⟩
  · rw [put_charUpto]
    omega
  · intro hnone
    rw [put_bufferUpto] at hnone
    omega
  · rw [hpos]
    omega
  · rw [hpos, put_charUpto]
  · rw [hpos, block, hdiv, put]
    dsimp only
    rw [if_pos rfl]
    exact hasText_write _ _ _
  · intro textStart text hholds
    refine ⟨hholds.fits, hholds.below.imp_right fun hsame => ⟨hsame.1, ?_⟩, fun i c hc => ?_⟩
    · rw [put_charUpto]
      exact hsame.2.trans (Nat.le_add_right _ _)
    · have hi : i < 1 + text.length := by
        have := (List.getElem?_eq_some_iff.mp hc).1
        rw [stored, List.length_append, List.length_singleton] at this
        omega
      have hold : pool.buffers (textStart / CHAR_BLOCK_SIZE) (blockPos textStart + i) = c := hholds.hasText i c hc
      rw [block, put]
      dsimp only
      split
      · rename_i heq
        rw [write_of_lt]
        · exact hold
        · rcases hholds.below with hlt | ⟨-, hle⟩ <;> omega
      · exact hold

theorem append_spec {textStart : Int} (hinv : pool.Inv) (hfits : 1 + tokenText.length ≤ CHAR_BLOCK_SIZE)
    (h : pool.append tokenText = some (textStart, pool')) :
    pool'.Inv ∧ pool'.Holds textStart tokenText ∧
      ∀ {textStart text}, pool.Holds textStart text → pool'.Holds textStart text := by
  rw [append] at h
  split at h
  · cases hnext : pool.nextBuffer with
    | none =>
        rw [hnext] at h
        cases h
    | some next =>
        rw [hnext] at h
        cases h
        obtain ⟨hnextInv, hupto, hzero, hkeep⟩ := nextBuffer_spec hinv hnext
        obtain ⟨hputInv, hholds, hput⟩ := put_spec tokenText hnextInv hupto (by omega)
        exact ⟨hputInv, hholds, fun hold => hput (hkeep hold)⟩
  · cases h
    have hupto : 0 ≤ pool.bufferUpto := by
      by_contra hneg
      have := hinv.full_of_none (by have := hinv.neg_one_le; omega)
      omega
    exact put_spec tokenText hinv hupto (by omega)

end CharBlockPool

/-! ### The table -/

namespace TermsHashPerField

variable {field field' : TermsHashPerField} {tokens : List WString} {e i : Nat} {charPool : CharBlockPool}
  {table : List (Option RawPostingList)} {p : RawPostingList}

/-- The texts that are kept of the tokens. -/
def Kept (tokens : List WString) (text : WString) : Prop :=
  ∃ tokenText ∈ tokens, replaceTerminator tokenText = text ∧ text.length ≤ DocumentsWriter.MAX_TERM_LENGTH

structure Sized (e : Nat) (field : TermsHashPerField) : Prop where
  lt_size : 2 ^ (e + 1) < 2 ^ 31
  length_eq : field.postingsHash.length = 2 ^ (e + 1)
  size_eq : field.postingsHashSize = 2 ^ (e + 1)
  half_eq : field.postingsHashHalfSize = 2 ^ e
  mask_eq : field.postingsHashMask = 2 ^ (e + 1) - 1

/-- The postings of a table have their texts in the character blocks, and are reached on the paths of their texts. -/
structure Stored (charPool : CharBlockPool) (mask : Nat) (table : List (Option RawPostingList)) : Prop where
  holds : ∀ p ∈ table.reduceOption, charPool.Holds p.textStart (charPool.text p.textStart)
  clean : ∀ p ∈ table.reduceOption, UNICODE_TERMINATOR ∉ charPool.text p.textStart
  reachable : Reachable (fun p => path mask (charPool.text p.textStart)) table

/-- The table of a field that is not compacted has one posting for each text that is kept of the tokens. -/
structure IsTable (tokens : List WString) (field : TermsHashPerField) : Prop where
  stored : Stored field.charPool field.postingsHashMask field.postingsHash
  length_eq : field.postingsHash.reduceOption.length = field.numPostings
  lt_half : field.numPostings < field.postingsHashHalfSize
  nodup : field.texts.Nodup
  mem_texts : ∀ text, text ∈ field.texts ↔ Kept tokens text

structure Inv (tokens : List WString) (field : TermsHashPerField) : Prop where
  sized : ∃ e, Sized e field
  charPool : field.charPool.Inv
  compacted : field.postingsCompacted = true → ∀ i, field.numPostings ≤ i → occupant field.postingsHash i = none
  isTable : field.postingsCompacted = false → IsTable tokens field

theorem Sized.le (h : Sized e field) : e + 1 ≤ 32 := by
  have := (Nat.pow_lt_pow_iff_right (by decide : 1 < 2)).mp h.lt_size
  omega

theorem path_lt (h : e + 1 ≤ 32) (text : WString) (k : Nat) : path (2 ^ (e + 1) - 1) text k < 2 ^ (e + 1) := by
  rw [path, hashPos_eq h]
  exact Nat.mod_lt _ (Nat.two_pow_pos _)

theorem IsTable.length_lt (h : IsTable tokens field) (hsized : Sized e field) :
    field.postingsHash.reduceOption.length < field.postingsHash.length := by
  have hlt := h.lt_half
  rw [hsized.half_eq] at hlt
  rw [h.length_eq, hsized.length_eq, pow_succ]
  omega

theorem Stored.mono {charPool' : CharBlockPool} {mask : Nat} (h : Stored charPool mask table)
    (hkeep : ∀ {textStart text}, charPool.Holds textStart text → charPool'.Holds textStart text) :
    (∀ p ∈ table.reduceOption, charPool'.text p.textStart = charPool.text p.textStart) ∧
      Stored charPool' mask table := by
  have heq : ∀ p ∈ table.reduceOption, charPool'.text p.textStart = charPool.text p.textStart :=
    fun p hp => (hkeep (h.holds p hp)).text_eq (h.clean p hp)
  refine ⟨heq, fun p hp => ?_, fun p hp => ?_, h.reachable.congr fun p hp => ?_⟩
  · rw [heq p hp]
    exact hkeep (h.holds p hp)
  · rw [heq p hp]
    exact h.clean p hp
  · rw [heq p hp]

theorem IsTable.find_spec (h : IsTable tokens field) (hsized : Sized e field) (hterm : UNICODE_TERMINATOR ∉ text) :
    ∃ i, field.find text = some i ∧ i < field.postingsHash.length ∧
      Reaches field.postingsHash (path field.postingsHashMask text) i ∧
      ((∃ p, occupant field.postingsHash i = some p) ↔ text ∈ field.texts) ∧
      ∀ p, occupant field.postingsHash i = some p → field.charPool.text p.textStart = text := by
  have hcovers := covers_path hsized.le text
  rw [← hsized.mask_eq, ← hsized.length_eq] at hcovers
  obtain ⟨i, hi⟩ := Option.isSome_iff_exists.mp (probe_isSome_of_covers hcovers (h.length_lt hsized)
    fun p => postingEquals (field.charPool.block p.textStart) (CharBlockPool.blockPos p.textStart) text)
  have hequals : ∀ p ∈ field.postingsHash.reduceOption, postingEquals (field.charPool.block p.textStart)
      (CharBlockPool.blockPos p.textStart) text = true ↔ field.charPool.text p.textStart = text :=
    fun p hp => postingEquals_eq (h.stored.holds p hp).hasText (h.stored.clean p hp) hterm
  have hreach := reaches_of_probe hi
  refine ⟨i, hi, ?_, hreach, ?_, fun p hp => ?_⟩
  · obtain ⟨k, rfl, -⟩ := hreach
    rw [hsized.length_eq, hsized.mask_eq]
    exact path_lt hsized.le text k
  · rw [exists_probe_iff h.stored.reachable (fun p hp hfound k => ?_) hi, texts, List.mem_map]
    · exact exists_congr fun p => and_congr_right fun hp => hequals p hp
    · rw [(hequals p hp).mp hfound]
      rfl
  · obtain ⟨-, -, -, hend⟩ := probe_eq_some hi
    exact (hequals p (mem_reduceOption_iff.mpr ⟨i, hp⟩)).mp (hend p hp)

theorem IsTable.lookup_iff (h : IsTable tokens field) (hsized : Sized e field) (hterm : UNICODE_TERMINATOR ∉ text) :
    field.lookup text = some p ↔ p ∈ field.postingsHash.reduceOption ∧ field.charPool.text p.textStart = text := by
  obtain ⟨i, hfind, -, -, hiff, htext⟩ := h.find_spec hsized hterm
  rw [lookup, hfind, Option.bind_some]
  constructor
  · exact fun hp => ⟨mem_reduceOption_iff.mpr ⟨i, hp⟩, htext p hp⟩
  · rintro ⟨hp, heq⟩
    obtain ⟨p', hp'⟩ := hiff.mpr (List.mem_map.mpr ⟨p, hp, heq⟩)
    have hsame : p = p' := List.inj_on_of_nodup_map h.nodup hp (mem_reduceOption_iff.mpr ⟨i, hp'⟩)
      (heq.trans (htext p' hp').symm)
    rw [hsame, hp']

/-- A posting of the old table finds a free slot in the new one, which keeps its postings reachable. -/
theorem rehashPosting_spec (he : e + 1 ≤ 32) {newHash : List (Option RawPostingList)}
    (hlength : newHash.length = 2 ^ (e + 1)) (hfree : newHash.reduceOption.length < newHash.length)
    (hreach : Reachable (fun p => path (2 ^ (e + 1) - 1) (charPool.text p.textStart)) newHash)
    (p0 : RawPostingList) :
    ∃ newHash', rehashPosting charPool (2 ^ (e + 1) - 1) newHash (some p0) = .ok newHash' ∧
      newHash'.length = newHash.length ∧ newHash'.reduceOption.Perm (p0 :: newHash.reduceOption) ∧
      Reachable (fun p => path (2 ^ (e + 1) - 1) (charPool.text p.textStart)) newHash' := by
  have hcovers : Covers (path (2 ^ (e + 1) - 1) (charPool.text p0.textStart)) newHash.length := by
    rw [hlength]
    exact covers_path he _
  obtain ⟨i, hi⟩ := Option.isSome_iff_exists.mp (probe_isSome_of_covers hcovers hfree fun _ => false)
  have hnone : occupant newHash i = none := by
    obtain ⟨-, -, -, hend⟩ := probe_eq_some hi
    exact Option.eq_none_iff_forall_ne_some.mpr fun p hp => absurd (hend p hp) Bool.false_ne_true
  have hslot := reaches_of_probe hi
  have hlt : i < newHash.length := by
    obtain ⟨k, rfl, -⟩ := hslot
    rw [hlength]
    exact path_lt he _ k
  refine ⟨newHash.set i (some p0), ?_, List.length_set, reduceOption_set hlt hnone p0, hreach.set hlt hslot⟩
  rw [rehashPosting, hi]

theorem foldlM_rehashPosting_spec (charPool : CharBlockPool) (he : e + 1 ≤ 32) (slots : List (Option RawPostingList))
    {newHash : List (Option RawPostingList)} (hlength : newHash.length = 2 ^ (e + 1))
    (hfree : newHash.reduceOption.length + slots.reduceOption.length < newHash.length)
    (hreach : Reachable (fun p => path (2 ^ (e + 1) - 1) (charPool.text p.textStart)) newHash) :
    ∃ newHash', slots.foldlM (rehashPosting charPool (2 ^ (e + 1) - 1)) newHash = .ok newHash' ∧
      newHash'.length = newHash.length ∧ newHash'.reduceOption.Perm (slots.reduceOption ++ newHash.reduceOption) ∧
      Reachable (fun p => path (2 ^ (e + 1) - 1) (charPool.text p.textStart)) newHash' := by
  induction slots generalizing newHash with
  | nil => exact ⟨newHash, rfl, rfl, List.Perm.refl _, hreach⟩
  | cons slot slots ih =>
      cases slot with
      | none =>
          rw [List.reduceOption_cons_of_none] at hfree ⊢
          exact ih hlength hfree hreach
      | some p0 =>
          rw [List.reduceOption_cons_of_some] at hfree ⊢
          rw [List.length_cons] at hfree
          obtain ⟨mid, hmid, hmidLength, hmidPerm, hmidReach⟩ :=
            rehashPosting_spec he hlength (by omega) hreach p0
          have hmidFree : mid.reduceOption.length + slots.reduceOption.length < mid.length := by
            rw [hmidLength, hmidPerm.length_eq, List.length_cons]
            omega
          obtain ⟨newHash', hfold, hnewLength, hperm, hnewReach⟩ :=
            ih (hmidLength.trans hlength) hmidFree hmidReach
          refine ⟨newHash', ?_, hnewLength.trans hmidLength, ?_, hnewReach⟩
          · rw [List.foldlM_cons, hmid]
            exact hfold
          · exact hperm.trans ((hmidPerm.append_left _).trans List.perm_middle)

/-- The postings that a rehash finds in the old table are the ones of the new table, and reachable there. -/
theorem rehashPostings_spec (field : TermsHashPerField) (hsized : Sized e field)
    (hstored : Stored field.charPool field.postingsHashMask field.postingsHash)
    (hfree : field.postingsHash.reduceOption.length < field.postingsHash.length) :
    field.rehashPostings (2 * field.postingsHashSize) = .error .overflow ∧ 2 ^ 31 ≤ 2 * field.postingsHashSize ∨
      ∃ field', field.rehashPostings (2 * field.postingsHashSize) = .ok field' ∧ Sized (e + 1) field' ∧
        Stored field'.charPool field'.postingsHashMask field'.postingsHash ∧
        field'.postingsHash.reduceOption.Perm field.postingsHash.reduceOption ∧
        field'.charPool = field.charPool ∧ field'.numPostings = field.numPostings ∧
        field'.postingsCompacted = field.postingsCompacted := by
  have hsize : 2 * field.postingsHashSize = 2 ^ (e + 2) := by
    rw [hsized.size_eq, ← pow_succ']
  rw [hsize, rehashPostings]
  split
  · rename_i hlt
    right
    have he : e + 1 + 1 ≤ 32 := by
      have := (Nat.pow_lt_pow_iff_right (by decide : 1 < 2)).mp hlt
      omega
    have hroom : (List.replicate (2 ^ (e + 2)) (none : Option RawPostingList)).reduceOption.length +
        field.postingsHash.reduceOption.length < (List.replicate (2 ^ (e + 2)) (none : Option RawPostingList)).length := by
      rw [List.reduceOption_replicate_none, List.length_nil, Nat.zero_add, List.length_replicate]
      rw [hsized.length_eq] at hfree
      exact hfree.trans (Nat.pow_lt_pow_right (by decide) (Nat.lt_succ_self _))
    obtain ⟨newHash, hfold, hlength, hperm, hreach⟩ := foldlM_rehashPosting_spec field.charPool he
      field.postingsHash List.length_replicate hroom (reachable_replicate_none _ _)
    rw [List.length_replicate] at hlength
    rw [List.reduceOption_replicate_none, List.append_nil] at hperm
    rw [hfold]
    refine ⟨_, rfl, ⟨hlt, hlength, rfl, ?_, rfl⟩, ⟨fun p hp => ?_, fun p hp => ?_, hreach⟩, hperm, rfl, rfl, rfl⟩
    · dsimp only
      rw [pow_succ, Nat.mul_div_cancel _ Nat.two_pos]
    · exact hstored.holds p (hperm.mem_iff.mp hp)
    · exact hstored.clean p (hperm.mem_iff.mp hp)
  · rename_i hge
    exact Or.inl ⟨rfl, Nat.le_of_not_lt hge⟩

end TermsHashPerField
end LucenePlusPlus
