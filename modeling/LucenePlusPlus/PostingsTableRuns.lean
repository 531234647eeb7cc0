import LucenePlusPlus.PostingsTable

/-!
The table of a field over whole runs: what `add` finds after any tokens, compactions, resets and changes of size.
-/

namespace LucenePlusPlus
open UTF8Base WChar OpenAddressing
open DictionaryOrder (CHAR_BLOCK_SIZE stored replaceTerminator terminator_notMem_replaceTerminator)

namespace TermsHashPerField

variable {field field' : TermsHashPerField} {tokens : List WString} {text tokenText : WString} {e i : Nat}
  {table : List (Option RawPostingList)} {p : RawPostingList}

/-- The limits of `int32_t`: the size of the next table, and the offset of the next character block. -/
def Full (field : TermsHashPerField) : Prop :=
  2 ^ 31 ≤ 2 * field.postingsHashSize ∨ 2 ^ 31 ≤ field.charPool.charOffset + CHAR_BLOCK_SIZE

theorem kept_append : Kept (tokens ++ [tokenText]) text ↔
    Kept tokens text ∨ replaceTerminator tokenText = text ∧ text.length ≤ DocumentsWriter.MAX_TERM_LENGTH := by
  simp [Kept, or_and_right, exists_or]

theorem reduceOption_eq_nil (h : ∀ i, occupant table i = none) : table.reduceOption = [] := by
  refine List.eq_nil_iff_forall_not_mem.mpr fun p hp => ?_
  obtain ⟨i, hi⟩ := mem_reduceOption_iff.mp hp
  rw [h i] at hi
  cases hi

theorem isTable_of_free (hsized : Sized e field) (hfree : field.postingsHash.reduceOption = [])
    (hzero : field.numPostings = 0) (hkept : ∀ text, ¬ Kept tokens text) : IsTable tokens field := by
  have htexts : field.texts = [] := by rw [texts, hfree, List.map_nil]
  refine ⟨⟨?_, ?_, fun i p hp => ?_⟩, ?_, ?_, ?_, fun text => ?_⟩
  · rw [hfree]
    simp
  · rw [hfree]
    simp
  · have hmem := mem_reduceOption_iff.mpr ⟨i, hp⟩
    rw [hfree] at hmem
    cases hmem
  · rw [hfree, hzero]
    rfl
  · rw [hzero, hsized.half_eq]
    exact Nat.two_pow_pos e
  · rw [htexts]
    exact List.nodup_nil
  · rw [htexts]
    exact iff_of_false List.not_mem_nil (hkept text)

theorem IsTable.free_of_zero (h : IsTable tokens field) (hzero : field.numPostings = 0) :
    field.postingsHash.reduceOption = [] ∧ ∀ text, ¬ Kept tokens text := by
  have hfree : field.postingsHash.reduceOption = [] := by
    rw [← List.length_eq_zero_iff, h.length_eq, hzero]
  refine ⟨hfree, fun text hkept => ?_⟩
  have hmem := (h.mem_texts text).mpr hkept
  rw [texts, hfree] at hmem
  cases hmem

theorem IsTable.of_perm {texts : List WString} (hstored : Stored field.charPool field.postingsHashMask field.postingsHash)
    (hlength : field.postingsHash.reduceOption.length = field.numPostings)
    (hhalf : field.numPostings < field.postingsHashHalfSize) (hperm : field.texts.Perm texts) (hnodup : texts.Nodup)
    (hmem : ∀ text, text ∈ texts ↔ Kept tokens text) : IsTable tokens field :=
  ⟨hstored, hlength, hhalf, hperm.nodup_iff.mpr hnodup, fun text => hperm.mem_iff.trans (hmem text)⟩

theorem Stored.set {charPool : CharBlockPool} {mask : Nat} {textStart : Int} (h : Stored charPool mask table)
    (hlt : i < table.length) (hfree : occupant table i = none) (hholds : charPool.Holds textStart text)
    (hterm : UNICODE_TERMINATOR ∉ text) (hreach : Reaches table (path mask text) i) :
    Stored charPool mask (table.set i (some ⟨textStart⟩)) ∧
      ((table.set i (some ⟨textStart⟩)).reduceOption.map fun p => charPool.text p.textStart).Perm
        (text :: table.reduceOption.map fun p => charPool.text p.textStart) := by
  have hplace := hholds.text_eq hterm
  have hperm := reduceOption_set hlt hfree ⟨textStart⟩
  have hmem : ∀ p ∈ (table.set i (some ⟨textStart⟩)).reduceOption, p = ⟨textStart⟩ ∨ p ∈ table.reduceOption :=
    fun p hp => List.mem_cons.mp (hperm.mem_iff.mp hp)
  refine ⟨⟨fun p hp => ?_, fun p hp => ?_, h.reachable.set hlt ?_⟩, ?_⟩
  · rcases hmem p hp with rfl | hold
    · rwa [hplace]
    · exact h.holds p hold
  · rcases hmem p hp with rfl | hold
    · rwa [hplace]
    · exact h.clean p hold
  · rwa [hplace]
  · have hmap := hperm.map fun p => charPool.text p.textStart
    rwa [List.map_cons, hplace] at hmap

theorem insert_spec (h : Inv tokens field) (hc : field.postingsCompacted = false) (hlt : i < field.postingsHash.length)
    (hfree : occupant field.postingsHash i = none) (hnew : replaceTerminator tokenText ∉ field.texts)
    (hreach : Reaches field.postingsHash (path field.postingsHashMask (replaceTerminator tokenText)) i)
    (hshort : (replaceTerminator tokenText).length ≤ DocumentsWriter.MAX_TERM_LENGTH) :
    field.insert i (replaceTerminator tokenText) = .error .overflow ∧ Full field ∨
      ∃ p field', field.insert i (replaceTerminator tokenText) = .ok (.newTerm p, field') ∧
        field'.postingsCompacted = false ∧ Inv (tokens ++ [tokenText]) field' := by
  obtain ⟨e, hsized⟩ := h.sized
  have htable := h.isTable hc
  have hterm := terminator_notMem_replaceTerminator tokenText
  generalize htext : replaceTerminator tokenText = text at *
  have hfits : 1 + text.length ≤ CHAR_BLOCK_SIZE := by
    have hmax : DocumentsWriter.MAX_TERM_LENGTH + 1 = CHAR_BLOCK_SIZE := rfl
    omega
  rw [insert, if_neg (Nat.not_lt.mpr hfits)]
  cases happend : field.charPool.append text with
  | none =>
      refine Or.inl ⟨rfl, Or.inr ?_⟩
      by_contra hlt
      rw [CharBlockPool.append, CharBlockPool.nextBuffer, if_pos (not_le.mp hlt)] at happend
      split at happend <;> cases happend
  | some appended =>
      obtain ⟨textStart, charPool⟩ := appended
      obtain ⟨hpool, hholds, hkeep⟩ := CharBlockPool.append_spec h.charPool hfits happend
      obtain ⟨hsame, hstored⟩ := htable.stored.mono hkeep
      obtain ⟨hset, htexts⟩ := hstored.set hlt hfree hholds hterm hreach
      rw [List.map_congr_left hsame] at htexts
      have hlength : (field.postingsHash.set i (some ⟨textStart⟩)).reduceOption.length = field.numPostings + 1 := by
        rw [(reduceOption_set hlt hfree _).length_eq, List.length_cons, htable.length_eq]
      have hnodup : (text :: field.texts).Nodup := List.nodup_cons.mpr ⟨hnew, htable.nodup⟩
      have hkept : ∀ text', text' ∈ text :: field.texts ↔ Kept (tokens ++ [tokenText]) text' := by
        intro text'
        rw [List.mem_cons, htable.mem_texts, kept_append, htext, or_comm]
        refine or_congr_right ⟨?_, fun heq => heq.1.symm⟩
        rintro rfl
        exact ⟨rfl, hshort⟩
      have hhalf := htable.lt_half
      dsimp only
      split
      · rename_i heq
        have hroom : (field.postingsHash.set i (some ⟨textStart⟩)).reduceOption.length <
            (field.postingsHash.set i (some (⟨textStart⟩ : RawPostingList))).length := by
          rw [hlength, heq, List.length_set, hsized.length_eq, hsized.half_eq]
          exact Nat.pow_lt_pow_right (by decide) (Nat.lt_succ_self e)
        rcases rehashPostings_spec ⟨field.postingsCompacted, field.numPostings + 1, field.postingsHashSize,
            field.postingsHashHalfSize, field.postingsHashMask, field.postingsHash.set i (some ⟨textStart⟩), charPool⟩
          ⟨hsized.lt_size, List.length_set.trans hsized.length_eq, hsized.size_eq, hsized.half_eq, hsized.mask_eq⟩ hset
          hroom with ⟨hover, hfull⟩ | ⟨field', hok, hsized', hstored', hperm', hpool', hnum', hc'⟩
        · rw [hover]
          exact Or.inl ⟨rfl, Or.inl hfull⟩
        · rw [hok]
          have hisTable : IsTable (tokens ++ [tokenText]) field' := by
            refine IsTable.of_perm hstored' ?_ ?_ ?_ hnodup hkept
            · rw [hperm'.length_eq, hlength, hnum']
            · rw [hnum', hsized'.half_eq, heq, hsized.half_eq]
              exact Nat.pow_lt_pow_right (by decide) (Nat.lt_succ_self e)
            · rw [texts, hpool']
              exact (hperm'.map _).trans htexts
          refine Or.inr ⟨⟨textStart⟩, field', rfl, hc'.trans hc, ⟨e + 1, hsized'⟩, hpool' ▸ hpool, ?_, fun _ => hisTable⟩
          rw [hc', hc]
          exact fun hcompacted => absurd hcompacted Bool.false_ne_true
      · rename_i hne
        refine Or.inr ⟨⟨textStart⟩, _, rfl, hc, ⟨e, hsized.lt_size, List.length_set.trans hsized.length_eq, hsized.size_eq,
          hsized.half_eq, hsized.mask_eq⟩, hpool, ?_, fun _ => IsTable.of_perm hset hlength ?_ htexts hnodup hkept⟩
        · rw [hc]
          exact fun hcompacted => absurd hcompacted Bool.false_ne_true
        · exact lt_of_le_of_ne hhalf hne

theorem Inv.add_spec (h : Inv tokens field) (hc : field.postingsCompacted = false) (tokenText : WString) :
    (Kept tokens (replaceTerminator tokenText) ∧ ∃ p, field.add tokenText = .ok (.located p, field) ∧
        field.charPool.text p.textStart = replaceTerminator tokenText) ∨
      (¬ Kept tokens (replaceTerminator tokenText) ∧ field.add tokenText = .ok (.skippingLongTerm, field) ∧
        DocumentsWriter.MAX_TERM_LENGTH < (replaceTerminator tokenText).length) ∨
      (¬ Kept tokens (replaceTerminator tokenText) ∧
        (replaceTerminator tokenText).length ≤ DocumentsWriter.MAX_TERM_LENGTH ∧
        (field.add tokenText = .error .overflow ∧ Full field ∨
          ∃ p field', field.add tokenText = .ok (.newTerm p, field') ∧ field'.postingsCompacted = false ∧
            Inv (tokens ++ [tokenText]) field')) := by
  obtain ⟨e, hsized⟩ := h.sized
  have htable := h.isTable hc
  obtain ⟨i, hfind, hlt, hreach, hiff, htext⟩ :=
    htable.find_spec hsized (terminator_notMem_replaceTerminator tokenText)
  have hadd : field.add tokenText = (occupant field.postingsHash i).elim (field.insert i (replaceTerminator tokenText))
      fun p => .ok (.located p, field) := by
    rw [add, hc, if_neg Bool.false_ne_true]
    dsimp only
    rewrite [hfind]
    dsimp only
    cases occupant field.postingsHash i <;> rfl
  rw [htable.mem_texts] at hiff
  rw [hadd]
  cases hoccupant : occupant field.postingsHash i with
  | some p => exact Or.inl ⟨hiff.mp ⟨p, hoccupant⟩, p, rfl, htext p hoccupant⟩
  | none =>
      have hnot : ¬ Kept tokens (replaceTerminator tokenText) := by
        intro hkept
        obtain ⟨p, hp⟩ := hiff.mpr hkept
        rw [hoccupant] at hp
        cases hp
      refine Or.inr ?_
      by_cases hlong : DocumentsWriter.MAX_TERM_LENGTH < (replaceTerminator tokenText).length
      · refine Or.inl ⟨hnot, ?_, hlong⟩
        have hmax : DocumentsWriter.MAX_TERM_LENGTH + 1 = CHAR_BLOCK_SIZE := rfl
        rw [Option.elim_none, insert, if_pos (by omega)]
      · have hshort := Nat.le_of_not_lt hlong
        exact Or.inr ⟨hnot, hshort,
          insert_spec h hc hlt hoccupant (fun hmem => hnot ((htable.mem_texts _).mp hmem)) hreach hshort⟩

theorem Inv.of_kept_iff {tokens' : List WString} (h : Inv tokens field)
    (heq : ∀ text, Kept tokens text ↔ Kept tokens' text) : Inv tokens' field := by
  refine ⟨h.sized, h.charPool, h.compacted, fun hc => ?_⟩
  have htable := h.isTable hc
  exact ⟨htable.stored, htable.length_eq, htable.lt_half, htable.nodup,
    fun text => (htable.mem_texts text).trans (heq text)⟩

theorem Inv.add {outcome : Outcome} (h : Inv tokens field) (hadd : field.add tokenText = .ok (outcome, field')) :
    Inv (tokens ++ [tokenText]) field' := by
  have hc : field.postingsCompacted = false := by
    by_contra hne
    rw [TermsHashPerField.add, if_pos (Bool.eq_true_of_not_eq_false hne)] at hadd
    cases hadd
  rcases h.add_spec hc tokenText with ⟨hkept, p, hok, -⟩ | ⟨-, hok, hlong⟩ |
    ⟨-, -, ⟨hover, -⟩ | ⟨p, field'', hok, -, hinv⟩⟩
  · rw [hok] at hadd
    cases hadd
    refine h.of_kept_iff fun text => ?_
    rw [kept_append]
    refine ⟨Or.inl, fun hor => hor.elim id ?_⟩
    rintro ⟨rfl, -⟩
    exact hkept
  · rw [hok] at hadd
    cases hadd
    refine h.of_kept_iff fun text => ?_
    rw [kept_append]
    refine ⟨Or.inl, fun hor => hor.elim id ?_⟩
    rintro ⟨rfl, hshort⟩
    exact absurd hshort (Nat.not_le.mpr hlong)
  · rw [hover] at hadd
    cases hadd
  · rw [hok] at hadd
    cases hadd
    exact hinv

/-! ### Compaction -/

theorem occupant_set_none (table : List (Option RawPostingList)) (i j : Nat) :
    occupant (table.set i none) j = if i = j then none else occupant table j := by
  rw [occupant, occupant, List.getElem?_set]
  split
  · split <;> rfl
  · rfl

/-- Behind the first postings there are free slots only, and the postings to come are where they were. -/
theorem foldl_compactPosting_spec (table : List (Option RawPostingList)) {n : Nat} (hn : n ≤ table.length) :
    ((List.range n).foldl compactPosting (table, 0)).1.length = table.length ∧
      ((List.range n).foldl compactPosting (table, 0)).2 ≤ n ∧
      (∀ j, ((List.range n).foldl compactPosting (table, 0)).2 ≤ j → j < n →
        occupant ((List.range n).foldl compactPosting (table, 0)).1 j = none) ∧
      ((List.range n).foldl compactPosting (table, 0)).2 +
        (((List.range n).foldl compactPosting (table, 0)).1.drop n).reduceOption.length = table.reduceOption.length := by
  induction n with
  | zero => exact ⟨rfl, le_rfl, nofun, Nat.zero_add _⟩
  | succ n ih =>
      obtain ⟨hlength, hle, hfree, hcount⟩ := ih (Nat.le_of_succ_le hn)
      rw [List.range_succ, List.foldl_append, List.foldl_cons, List.foldl_nil]
      generalize (List.range n).foldl compactPosting (table, 0) = state at *
      obtain ⟨hash, upto⟩ := state
      dsimp only at *
      have hlt : n < hash.length := by omega
      have hdrop : hash.drop n = hash[n] :: hash.drop (n + 1) := List.drop_eq_getElem_cons hlt
      have hget : occupant hash n = hash[n] := by rw [occupant, List.getElem?_eq_getElem hlt, Option.join_some]
      rw [hdrop] at hcount
      rw [compactPosting]
      dsimp only
      cases hslot : occupant hash n with
      | none =>
          rw [← hget, hslot, List.reduceOption_cons_of_none] at hcount
          refine ⟨hlength, Nat.le_succ_of_le hle, fun j hj hjn => ?_, hcount⟩
          rcases Nat.lt_succ_iff_lt_or_eq.mp hjn with hlt | rfl
          · exact hfree j hj hlt
          · exact hslot
      | some p =>
          rw [← hget, hslot, List.reduceOption_cons_of_some, List.length_cons] at hcount
          dsimp only
          split
          · rename_i hupto
            refine ⟨?_, Nat.succ_le_succ hle, fun j hj hjn => ?_, ?_⟩
            · rw [List.length_set, List.length_set, hlength]
            · rw [occupant_set_none]
              split
              · rfl
              · rw [occupant_set (hupto.trans hlt), if_neg (Nat.ne_of_lt hj)]
                exact hfree j (Nat.le_of_succ_le hj) (by omega)
            · rw [List.drop_set_of_lt (Nat.lt_add_one n), List.drop_set_of_lt (Nat.lt_add_one_of_lt hupto)]
              omega
          · refine ⟨hlength, Nat.succ_le_succ hle, fun j hj hjn => ?_, ?_⟩
            · omega
            · omega

theorem Inv.compactPostings (h : Inv tokens field) (hok : field.compactPostings = .ok field') :
    Inv tokens field' ∧ field'.postingsCompacted = true := by
  obtain ⟨e, hsized⟩ := h.sized
  obtain ⟨hlength, -, hfree, -⟩ := foldl_compactPosting_spec field.postingsHash le_rfl
  rw [hsized.length_eq, ← hsized.size_eq] at hfree
  rw [hsized.length_eq, ← hsized.size_eq] at hlength
  rw [TermsHashPerField.compactPostings] at hok
  split at hok
  · rename_i hupto
    cases hok
    refine ⟨⟨⟨e, hsized.lt_size, hlength.trans hsized.size_eq, hsized.size_eq, hsized.half_eq, hsized.mask_eq⟩,
      h.charPool, fun _ j hj => ?_, nofun⟩, rfl⟩
    dsimp only at hj ⊢
    by_cases hlt : j < field.postingsHashSize
    · exact hfree j (hupto.le.trans hj) hlt
    · rw [occupant, List.getElem?_eq_none (hlength.le.trans (Nat.le_of_not_lt hlt))]
      rfl
  · cases hok

theorem Inv.recyclePostings (h : Inv tokens field) (hc : field.postingsCompacted = true)
    (hok : field.recyclePostings = .ok field') : Inv [] field' ∧ field'.postingsCompacted = false := by
  obtain ⟨e, hsized⟩ := h.sized
  rw [TermsHashPerField.recyclePostings] at hok
  split at hok
  · rename_i hle
    cases hok
    have hlength : (List.replicate field.numPostings none ++ field.postingsHash.drop field.numPostings).length =
        field.postingsHash.length := by
      rw [List.length_append, List.length_replicate, List.length_drop]
      omega
    have hsized' := (hlength.trans hsized.length_eq)
    have hfree : (List.replicate field.numPostings none ++ field.postingsHash.drop field.numPostings).reduceOption =
        [] := by
      rw [List.reduceOption_append, List.reduceOption_replicate_none, List.nil_append]
      refine reduceOption_eq_nil fun i => ?_
      rw [occupant, List.getElem?_drop]
      exact h.compacted hc _ (Nat.le_add_right _ _)
    have hs : Sized e { field with
        postingsHash := List.replicate field.numPostings none ++ field.postingsHash.drop field.numPostings
        numPostings := 0
        postingsCompacted := false } := ⟨hsized.lt_size, hsized', hsized.size_eq, hsized.half_eq, hsized.mask_eq⟩
    exact ⟨⟨⟨e, hs⟩, h.charPool, fun hcompacted => absurd hcompacted Bool.false_ne_true, fun _ => isTable_of_free hs hfree rfl fun text hkept => by
      obtain ⟨tokenText, hmem, -⟩ := hkept
      cases hmem⟩, rfl⟩
  · cases hok

theorem Inv.reset (h : Inv tokens field) (hok : field.reset = .ok field') :
    Inv [] field' ∧ field'.postingsCompacted = false := by
  rw [TermsHashPerField.reset] at hok
  split at hok
  · rename_i hc
    exact h.recyclePostings hc hok
  · cases hcompact : field.compactPostings with
    | error failure =>
        rw [hcompact] at hok
        cases hok
    | ok mid =>
        rw [hcompact] at hok
        obtain ⟨hmid, hc⟩ := h.compactPostings hcompact
        exact hmid.recyclePostings hc hok

theorem Inv.shrinkHash {targetSize : Nat} (h : Inv tokens field) (hok : field.shrinkHash targetSize = .ok field') :
    Inv tokens field' := by
  obtain ⟨e, hsized⟩ := h.sized
  have hfour : Sized 1 field' ∧ field'.postingsHash = List.replicate 4 none ∧ field'.charPool = field.charPool ∧
      field'.numPostings = field.numPostings ∧ field'.postingsCompacted = field.postingsCompacted ∧
      (field.postingsCompacted = true ∨ field.numPostings = 0) := by
    rw [TermsHashPerField.shrinkHash] at hok
    split at hok
    · rename_i hallowed
      dsimp only at hok
      split at hok
      · cases hok
        exact ⟨⟨by decide, rfl, rfl, rfl, rfl⟩, rfl, rfl, rfl, rfl, hallowed⟩
      · rename_i hsame
        have he : e = 1 := by
          have hpow : 2 ^ (e + 1) = 2 ^ 2 := hsized.length_eq.symm.trans (not_not.mp hsame).symm
          exact Nat.succ.inj (Nat.pow_right_injective le_rfl hpow)
        subst he
        cases hok
        exact ⟨⟨by decide, rfl, hsized.size_eq, hsized.half_eq, hsized.mask_eq⟩, rfl, rfl, rfl, rfl, hallowed⟩
    · cases hok
  obtain ⟨hsized', htable', hpool, hnum, hcompacted, hallowed⟩ := hfour
  refine ⟨⟨1, hsized'⟩, hpool ▸ h.charPool, fun _ i _ => ?_, fun hc => ?_⟩
  · rw [htable', occupant_replicate_none]
  · rw [hcompacted] at hc
    have hzero := hallowed.resolve_left (by rw [hc]; nofun)
    refine isTable_of_free hsized' ?_ (hnum.trans hzero) ((h.isTable hc).free_of_zero hzero).2
    rw [htable', List.reduceOption_replicate_none]

theorem Inv.withPool {charPool : CharBlockPool} (h : Inv tokens field) (hpool : charPool.Inv)
    (hkeep : ∀ {textStart text}, field.charPool.Holds textStart text → charPool.Holds textStart text) :
    Inv tokens { field with charPool := charPool } := by
  obtain ⟨e, hsized⟩ := h.sized
  refine ⟨⟨e, hsized.lt_size, hsized.length_eq, hsized.size_eq, hsized.half_eq, hsized.mask_eq⟩, hpool, h.compacted,
    fun hc => ?_⟩
  have htable := h.isTable hc
  obtain ⟨hsame, hstored⟩ := htable.stored.mono hkeep
  refine IsTable.of_perm hstored htable.length_eq htable.lt_half ?_ htable.nodup htable.mem_texts
  rw [texts, texts, List.map_congr_left hsame]

theorem Runs.inv (h : Runs tokens field) : Inv tokens field := by
  induction h with
  | initial buffers =>
      have hsized : Sized 1 (TermsHashPerField.initial (.empty buffers)) := ⟨by decide, rfl, rfl, rfl, rfl⟩
      exact ⟨⟨1, hsized⟩, CharBlockPool.inv_empty buffers, nofun,
        fun _ => isTable_of_free hsized (List.reduceOption_replicate_none) rfl fun text hkept => by
          obtain ⟨tokenText, hmem, -⟩ := hkept
          cases hmem⟩
  | add _ hadd ih => exact ih.add hadd
  | otherField _ hfits happend ih =>
      obtain ⟨hpool, -, hkeep⟩ := CharBlockPool.append_spec ih.charPool hfits happend
      exact ih.withPool hpool hkeep
  | compactPostings _ hok ih => exact (ih.compactPostings hok).1
  | reset _ hok ih => exact (ih.reset hok).1
  | shrinkHash _ hok ih => exact ih.shrinkHash hok
  | @resetPool tokens field buffers _ hzero ih =>
      obtain ⟨e, hsized⟩ := ih.sized
      have hsized' : Sized e { field with charPool := .empty buffers } :=
        ⟨hsized.lt_size, hsized.length_eq, hsized.size_eq, hsized.half_eq, hsized.mask_eq⟩
      refine ⟨⟨e, hsized'⟩, CharBlockPool.inv_empty buffers, ih.compacted, fun hc => ?_⟩
      obtain ⟨hfree, hkept⟩ := (ih.isTable hc).free_of_zero hzero
      exact isTable_of_free hsized' hfree hzero hkept

/-- A rehash of a table keeps every posting where the search for its text finds it. -/
theorem IsTable.lookup_rehashPostings (h : IsTable tokens field) (hsized : Sized e field)
    (hok : field.rehashPostings (2 * field.postingsHashSize) = .ok field') {p : RawPostingList}
    (hp : p ∈ field.postingsHash.reduceOption) : field'.lookup (field.charPool.text p.textStart) = some p := by
  rcases rehashPostings_spec field hsized h.stored (h.length_lt hsized) with
    ⟨hover, -⟩ | ⟨field'', hok', hsized', hstored', hperm', hpool', hnum', -⟩
  · rw [hover] at hok
    cases hok
  · rw [hok'] at hok
    cases hok
    have htexts : field'.texts.Perm field.texts := by
      rw [texts, texts, hpool']
      exact hperm'.map _
    have htable' : IsTable tokens field' := by
      refine IsTable.of_perm hstored' ?_ ?_ htexts h.nodup h.mem_texts
      · rw [hperm'.length_eq, h.length_eq, hnum']
      · have hhalf := h.lt_half
        rw [hsized.half_eq] at hhalf
        rw [hnum', hsized'.half_eq]
        exact hhalf.trans (Nat.pow_lt_pow_right (by decide) (Nat.lt_succ_self e))
    rw [htable'.lookup_iff hsized' (h.stored.clean p hp), hpool']
    exact ⟨hperm'.mem_iff.mpr hp, rfl⟩

theorem IsTable.rehashPostings_ne_loops (h : IsTable tokens field) (hsized : Sized e field) :
    field.rehashPostings (2 * field.postingsHashSize) ≠ .error .loops := by
  rcases rehashPostings_spec field hsized h.stored (h.length_lt hsized) with ⟨hover, -⟩ | ⟨field', hok, -⟩
  · rw [hover]
    nofun
  · rw [hok]
    nofun

theorem Inv.located_iff (h : Inv tokens field) (hc : field.postingsCompacted = false) (tokenText : WString) :
    (∃ p field', field.add tokenText = .ok (.located p, field')) ↔ Kept tokens (replaceTerminator tokenText) := by
  rcases h.add_spec hc tokenText with ⟨hkept, p, hok, -⟩ | ⟨hnot, hok, -⟩ |
    ⟨hnot, -, ⟨hok, -⟩ | ⟨p, field', hok, -⟩⟩
  · exact iff_of_true ⟨p, field, hok⟩ hkept
  all_goals
    refine iff_of_false (fun hlocated => ?_) hnot
    obtain ⟨p', field'', hlocated⟩ := hlocated
    rw [hok] at hlocated
    cases hlocated

/-- What holds of the table of a field after any run, with the texts as `add` replaces the terminator in them. Every
search ends, and short of the limits of `int32_t` the token gets its outcome. A posting is located if and only if a
token with that text was added since the last `reset`, and it is one of that text. Each such text that is not too long
has one posting. A rehash keeps every posting where the search for its text finds it. -/
theorem Runs.add_finds (h : Runs tokens field) (hc : field.postingsCompacted = false) (tokenText : WString) :
    field.add tokenText ≠ .error .loops ∧ (∀ failure, field.add tokenText = .error failure → Full field) ∧
      ((∃ p field', field.add tokenText = .ok (.located p, field')) ↔ Kept tokens (replaceTerminator tokenText)) ∧
      (∀ p field', field.add tokenText = .ok (.located p, field') →
        field' = field ∧ field.charPool.text p.textStart = replaceTerminator tokenText) ∧
      (∀ text, (Kept tokens text → field.texts.count text = 1) ∧ (¬ Kept tokens text → field.texts.count text = 0)) ∧
      field.rehashPostings (2 * field.postingsHashSize) ≠ .error .loops ∧
      ∀ field', field.rehashPostings (2 * field.postingsHashSize) = .ok field' →
        ∀ p ∈ field.postingsHash.reduceOption, field'.lookup (field.charPool.text p.textStart) = some p := by
  have hinv := h.inv
  have htable := hinv.isTable hc
  obtain ⟨e, hsized⟩ := hinv.sized
  have houtcome : field.add tokenText ≠ .error .loops ∧
      (∀ failure, field.add tokenText = .error failure → Full field) ∧
      ∀ p field', field.add tokenText = .ok (.located p, field') →
        field' = field ∧ field.charPool.text p.textStart = replaceTerminator tokenText := by
    rcases hinv.add_spec hc tokenText with ⟨-, p, hok, htext⟩ | ⟨-, hok, -⟩ |
      ⟨-, -, ⟨hok, hfull⟩ | ⟨p, field', hok, -⟩⟩
    · rw [hok]
      refine ⟨nofun, nofun, fun p' field' heq => ?_⟩
      cases heq
      exact ⟨rfl, htext⟩
    · rw [hok]
      exact ⟨nofun, nofun, nofun⟩
    · rw [hok]
      exact ⟨nofun, fun _ _ => hfull, nofun⟩
    · rw [hok]
      exact ⟨nofun, nofun, nofun⟩
  refine ⟨houtcome.1, houtcome.2.1, hinv.located_iff hc tokenText, houtcome.2.2,
    fun text => ⟨fun hkept => ?_, fun hkept => ?_⟩, htable.rehashPostings_ne_loops hsized,
    fun field' hok p hp => htable.lookup_rehashPostings hsized hok hp⟩
  · exact List.count_eq_one_of_mem htable.nodup ((htable.mem_texts text).mpr hkept)
  · exact List.count_eq_zero.mpr fun hmem => hkept ((htable.mem_texts text).mp hmem)

theorem Runs.add_finds_first_again : ∃ field, Runs [[⟨97, by decide⟩], [⟨98, by decide⟩]] field ∧
    ∃ p field', field.add [⟨97, by decide⟩] = .ok (.located p, field') :=
  have hrun : Runs (([] ++ [[⟨97, by decide⟩]]) ++ [[⟨98, by decide⟩]]) _ :=
    .add (.add (.initial fun _ _ => UNICODE_TERMINATOR) rfl) rfl
  ⟨_, hrun, (hrun.add_finds rfl [⟨97, by decide⟩]).2.2.1.mpr ⟨_, List.mem_cons_self, rfl, by decide⟩⟩

/-- A token that fills a block. -/
def longToken : WString := List.replicate CHAR_BLOCK_SIZE ⟨97, WChar.a_mem⟩

theorem replaceTerminator_longToken : replaceTerminator longToken = longToken := by
  rw [replaceTerminator, longToken, List.map_replicate]
  rfl

/-- Added twice, it is not located. -/
theorem long_token_not_located :
    Runs [longToken] (TermsHashPerField.initial (.empty fun _ _ => UNICODE_TERMINATOR)) ∧
      ¬ ∃ p field', (TermsHashPerField.initial (.empty fun _ _ => UNICODE_TERMINATOR)).add longToken =
        .ok (.located p, field') := by
  have hinitial := Runs.initial fun _ _ => UNICODE_TERMINATOR
  have hlength : longToken.length = CHAR_BLOCK_SIZE := List.length_replicate
  have hmax : DocumentsWriter.MAX_TERM_LENGTH + 1 = CHAR_BLOCK_SIZE := rfl
  have hskip : (TermsHashPerField.initial (.empty fun _ _ => UNICODE_TERMINATOR)).add longToken =
      .ok (.skippingLongTerm, TermsHashPerField.initial (.empty fun _ _ => UNICODE_TERMINATOR)) := by
    rcases hinitial.inv.add_spec rfl longToken with ⟨⟨tokenText, hmem, -⟩, -⟩ | ⟨-, hok, -⟩ | ⟨-, hshort, -⟩
    · cases hmem
    · exact hok
    · rw [replaceTerminator_longToken] at hshort
      omega
  refine ⟨hinitial.add hskip, fun hlocated => ?_⟩
  obtain ⟨p, field', hlocated⟩ := hlocated
  rw [hskip] at hlocated
  cases hlocated

end TermsHashPerField
end LucenePlusPlus
