import SeaClaw.Lib.Words
import SeaClaw.Memory.Consolidation

/-!
# Laws of the similarity score

The score counts the words of the first text that the second one has, each occurrence for itself,
and only the first words of both. It is the index of the two sets of words when no word is
repeated; otherwise the two directions may count differently.
-/

namespace SeaClaw.Memory

open SeaClaw.Lib

/-! ## Words -/

/-- What separates words. -/
def separates (b : UInt8) : Bool := b ≤ 0x20

/-- The words of a text, in their order. -/
def words (s : Bytes) : List Bytes := (s.splitOnP separates).filter (· ≠ [])

/-- The words that are compared. -/
def comparedWords (s : Bytes) : List Bytes := (words s).take scConsMaxTokens

/-- The percentage when `m` of `n` words are shared. -/
def sharedPercent (n m : ℕ) : ℕ := m * 100 / (n - m)

/-- How many compared words of the first text are words of the second one. -/
def sharedWords (a b : Bytes) : ℕ := sharedTokens (comparedWords a) (comparedWords b)

/-- How many words are compared. -/
def comparedCount (a b : Bytes) : ℕ := (comparedWords a).length + (comparedWords b).length

theorem sharedWords_le (a b : Bytes) : sharedWords a b ≤ (comparedWords a).length :=
  List.countP_le_length

theorem words_nil : words [] = [] := rfl

/-- Shared words are counted alike: in both directions up to the percentage, no more than half of
the words, and exactly half of them when the sets of words are the same. -/
structure CountedAlike (a b : Bytes) : Prop where
  bothWays : sharedPercent (comparedCount a b) (sharedWords a b) =
    sharedPercent (comparedCount a b) (sharedWords b a)
  half : 2 * sharedWords a b ≤ comparedCount a b
  same : (∀ w, w ∈ words a ↔ w ∈ words b) → 2 * sharedWords a b = comparedCount a b

/-- Distinct words of which as many are shared from either side. -/
theorem sharedTokens_comm {as bs : List Bytes} (ha : as.Nodup) (hb : bs.Nodup) :
    sharedTokens as bs = sharedTokens bs as := by
  have hset : ∀ {xs ys : List Bytes}, xs.Nodup → sharedTokens xs ys =
      (xs.toFinset ∩ ys.toFinset).card := by
    intro xs ys hxs
    rw [sharedTokens, List.countP_eq_length_filter, ← List.toFinset_card_of_nodup (hxs.filter _)]
    congr 1
    ext w
    simp
  rw [hset ha, hset hb, Finset.inter_comm]

/-- For texts of few distinct words the shared words are counted alike. -/
theorem countedAlike_of_nodup {a b : Bytes} (ha : (words a).Nodup) (hb : (words b).Nodup)
    (hla : (words a).length ≤ scConsMaxTokens) (hlb : (words b).length ≤ scConsMaxTokens) :
    CountedAlike a b := by
  have hwa : comparedWords a = words a := List.take_of_length_le hla
  have hwb : comparedWords b = words b := List.take_of_length_le hlb
  refine ⟨?_, ?_, ?_⟩
  · rw [sharedWords, sharedWords, hwa, hwb, sharedTokens_comm ha hb]
  · have hle := sharedWords_le a b
    have hle' := sharedWords_le b a
    have hcomm : sharedWords b a = sharedWords a b := by
      rw [sharedWords, sharedWords, hwa, hwb, sharedTokens_comm hb ha]
    rw [comparedCount]
    omega
  · intro hsame
    have hall : ∀ {xs ys : List Bytes}, (∀ w ∈ xs, w ∈ ys) → sharedTokens xs ys = xs.length := by
      intro xs ys h
      rw [sharedTokens, List.countP_eq_length]
      intro w hw
      exact List.contains_iff_mem.mpr (h w hw)
    have hab := hall fun w hw => (hsame w).mp hw
    have hba := hall fun w hw => (hsame w).mpr hw
    rw [sharedTokens_comm hb ha, hab] at hba
    rw [sharedWords, comparedCount, hwa, hwb, hab]
    omega

end SeaClaw.Memory
