import Mathlib.Data.List.GetD
import Mathlib.Tactic
import LucenePlusPlus.BitUtil
import LucenePlusPlus.RAMOutputStream

/-!
`BitSet`: a `boost::dynamic_bitset` of any number of bits, kept in blocks of 64 whose bits behind the last one are
zero.
-/

namespace LucenePlusPlus

structure BitSet where
  bitSet : List Bool
  deriving DecidableEq

namespace BitSet

variable (a b : BitSet) {n i : Nat}

def ofSize (size : Nat) : BitSet := ⟨List.replicate size false⟩

/-- `bitIndex < bitSet.size() ? bitSet.test(bitIndex) : false` -/
def get (bitIndex : Nat) : Bool := a.bitSet.getD bitIndex false

def numBlocks : Nat := (a.bitSet.length + 63) / 64

def size : Nat := a.numBlocks * 64

/-- `m_bits[k]` -/
def block (k : Nat) : BitVec 64 := (BitVec.ofBoolListLE ((a.bitSet.drop (64 * k)).take 64)).setWidth 64

/-- `to_block_range`: from the lowest block on. -/
def blocks : List (BitVec 64) := (List.range a.numBlocks).map a.block

def isEmpty : Bool := a.bitSet.all (!·)

def resize (size : Nat) : BitSet := ⟨a.bitSet.take size ++ List.replicate (size - a.bitSet.length) false⟩

/-- `bitSet.set`, which asserts that there is such a bit. -/
def fastSet (bitIndex : Nat) (value : Bool) : Option BitSet :=
  if bitIndex < a.bitSet.length then some ⟨a.bitSet.set bitIndex value⟩ else none

def set (bitIndex : Nat) (value : Bool) : Option BitSet :=
  let a := if a.bitSet.length ≤ bitIndex then a.resize ((bitIndex + 1) % 2 ^ 32) else a
  a.fastSet bitIndex value

/-- `find_first` and `find_next`: the first bit from `n` on that is set. -/
def findFrom (n : Nat) : Option Nat := ((a.bitSet.drop n).findIdx? (· = true)).map (n + ·)

/-- The answer is an `int32_t`. -/
def nextSetBit (fromIndex : Nat) : Int :=
  match a.findFrom fromIndex with
  | some next => toInt32 next
  | none => -1

def cardinality : Nat := a.bitSet.count true

theorem findFrom_eq_some : a.findFrom n = some i ↔ n ≤ i ∧ a.get i = true ∧ ∀ j, n ≤ j → j < i → a.get j = false := by
  rw [findFrom, Option.map_eq_some_iff]
  simp only [List.findIdx?_eq_some_iff_getElem, List.length_drop, List.getElem_drop, decide_eq_true_eq, get]
  constructor
  · rintro ⟨k, ⟨hk, hget, hbefore⟩, rfl⟩
    refine ⟨Nat.le_add_right n k, ?_, fun j hnj hjk => ?_⟩
    · rw [List.getD_eq_getElem _ _ (by omega)]
      exact hget
    · have hj := hbefore (j - n) (by omega)
      rw [List.getD_eq_getElem _ _ (by omega), ← Bool.not_eq_true]
      simpa only [Nat.add_sub_cancel' hnj] using hj
  · rintro ⟨hle, hget, hbefore⟩
    have hlt : i < a.bitSet.length := by
      by_contra hge
      rw [List.getD_eq_default _ _ (by omega)] at hget
      cases hget
    refine ⟨i - n, ⟨by omega, ?_, fun j hj => ?_⟩, by omega⟩
    · rw [List.getD_eq_getElem _ _ hlt] at hget
      simpa only [Nat.add_sub_cancel' hle] using hget
    · have hfalse := hbefore (n + j) (by omega) (by omega)
      rw [List.getD_eq_getElem _ _ (by omega)] at hfalse
      rw [hfalse]
      exact Bool.false_ne_true

theorem findFrom_eq_none : a.findFrom n = none ↔ ∀ j, n ≤ j → a.get j = false := by
  constructor
  · intro hnone j hj
    by_contra hne
    rw [Bool.not_eq_false] at hne
    have hex : ∃ k, n ≤ k ∧ a.get k = true := ⟨j, hj, hne⟩
    have hfirst := a.findFrom_eq_some.mpr ⟨(Nat.find_spec hex).1, (Nat.find_spec hex).2, fun m hnm hm => by
      have hmin := Nat.find_min hex hm
      rw [not_and, Bool.not_eq_true] at hmin
      exact hmin hnm⟩
    rw [hnone] at hfirst
    cases hfirst
  · intro hall
    cases hfind : a.findFrom n with
    | none => rfl
    | some i =>
        obtain ⟨hle, hget, -⟩ := a.findFrom_eq_some.mp hfind
        rw [hall i hle] at hget
        cases hget

theorem lt_length_of_get (h : a.get i = true) : i < a.bitSet.length := by
  by_contra hge
  rw [get, List.getD_eq_default _ _ (by omega)] at h
  cases h

/-- The loop of `equals`, whose searches go on from `n`. -/
def agreeFrom (first second : BitSet) (n : Nat) : Bool :=
  if first.findFrom n = second.findFrom n then
    match _h : first.findFrom n with
    | some i => agreeFrom first second (i + 1)
    | none => true
  else false
termination_by first.bitSet.length - n
decreasing_by
  obtain ⟨hle, hget, -⟩ := first.findFrom_eq_some.mp _h
  have hlt := first.lt_length_of_get hget
  omega

def equals : Bool := if a.numBlocks < b.numBlocks then agreeFrom b a 0 else agreeFrom a b 0

theorem agreeFrom_iff (first second : BitSet) (n : Nat) :
    agreeFrom first second n = true ↔ ∀ i, n ≤ i → first.get i = second.get i := by
  induction n using agreeFrom.induct first second with
  | case1 n heq i hfind ih =>
      rw [agreeFrom, if_pos heq, hfind]
      obtain ⟨hle, hget, hbefore⟩ := first.findFrom_eq_some.mp hfind
      obtain ⟨-, hget', hbefore'⟩ := second.findFrom_eq_some.mp (heq ▸ hfind)
      simp only [ih]
      refine ⟨fun hall j hj => ?_, fun hall j hj => hall j (by omega)⟩
      rcases lt_trichotomy j i with hlt | rfl | hgt
      · rw [hbefore j hj hlt, hbefore' j hj hlt]
      · rw [hget, hget']
      · exact hall j hgt
  | case2 n heq hfind =>
      rw [agreeFrom, if_pos heq, hfind]
      have hnone := first.findFrom_eq_none.mp hfind
      have hnone' := second.findFrom_eq_none.mp (heq ▸ hfind)
      exact ⟨fun _ j hj => by rw [hnone j hj, hnone' j hj], fun _ => rfl⟩
  | case3 n hne =>
      rw [agreeFrom, if_neg hne]
      refine ⟨fun h => absurd h Bool.false_ne_true, fun hall => absurd ?_ hne⟩
      cases hfind : second.findFrom n with
      | none =>
          rw [findFrom_eq_none] at hfind ⊢
          exact fun j hj => (hall j hj).trans (hfind j hj)
      | some i =>
          rw [findFrom_eq_some] at hfind ⊢
          obtain ⟨hle, hget, hbefore⟩ := hfind
          exact ⟨hle, (hall i hle).trans hget, fun j hj hlt => (hall j hj).trans (hbefore j hj hlt)⟩

theorem equals_iff : a.equals b = true ↔ ∀ i, a.get i = b.get i := by
  rw [equals]
  split
  · rw [agreeFrom_iff]
    exact ⟨fun h i => (h i (Nat.zero_le i)).symm, fun h i _ => (h i).symm⟩
  · rw [agreeFrom_iff]
    exact ⟨fun h i => h i (Nat.zero_le i), fun h i _ => h i⟩

theorem isEmpty_iff : a.isEmpty = true ↔ ∀ i, a.get i = false := by
  rw [isEmpty, List.all_eq_true]
  constructor
  · intro hall i
    by_contra hne
    rw [Bool.not_eq_false] at hne
    have hlt := a.lt_length_of_get hne
    have hget := hall _ (List.getElem_mem hlt)
    rw [get, List.getD_eq_getElem _ _ hlt] at hne
    rw [hne] at hget
    cases hget
  · intro hall x hx
    obtain ⟨i, hi, rfl⟩ := List.getElem_of_mem hx
    have hget := hall i
    rw [get, List.getD_eq_getElem _ _ hi] at hget
    rw [hget]
    rfl

end BitSet
end LucenePlusPlus
