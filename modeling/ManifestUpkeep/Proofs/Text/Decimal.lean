import Mathlib.Algebra.GroupWithZero.Nat
import Mathlib.Data.List.Induction
import ManifestUpkeep.Calendar
import ManifestUpkeep.Text.Digits

/-!
Decimal numbers. Numbers that are filled up to one width are read back, and their texts are in the
order of the numbers.
-/
namespace ManifestUpkeep.Text
open Calendar

/-- The last digits of a number, the first of them zeros if it has fewer. -/
def lastDigits : Nat → Nat → List Char
  | 0, _ => []
  | width + 1, n => lastDigits width (n / 10) ++ [Nat.digitChar (n % 10)]

@[simp] theorem length_lastDigits (width n : Nat) : (lastDigits width n).length = width := by
  induction width generalizing n with
  | zero => rfl
  | succ width ih => rw [lastDigits, List.length_append, ih, List.length_singleton]

theorem hexDigit?_digitChar : ∀ d < 10, hexDigit? (Nat.digitChar d) = some d := by
  decide

theorem isDigit_digitChar : ∀ d < 10, (Nat.digitChar d).isDigit := by
  decide

theorem exists_digitChar {c : Char} (h : c.isDigit) : ∃ d < 10, c = Nat.digitChar d := by
  have hbounds : 48 ≤ c.toNat ∧ c.toNat ≤ 57 := by
    simpa [Char.isDigit, UInt32.le_iff_toNat_le] using h
  refine ⟨c.toNat - 48, by omega, Char.toNat_inj.1 ?_⟩
  rw [Nat.toNat_digitChar_of_lt_ten (by omega)]
  omega

theorem isDigit_of_mem_lastDigits {width n : Nat} {c : Char} (h : c ∈ lastDigits width n) :
    c.isDigit := by
  induction width generalizing n with
  | zero => cases h
  | succ width ih =>
    rcases List.mem_append.1 h with h | h
    · exact ih h
    · cases List.mem_singleton.1 h
      exact isDigit_digitChar _ (Nat.mod_lt _ (by decide))

theorem numberInBase?_concat {cs : List Char} {n d : Nat} (h : numberInBase? 10 cs = some n)
    (hd : d < 10) : numberInBase? 10 (cs ++ [Nat.digitChar d]) = some (10 * n + d) := by
  rw [numberInBase?] at h ⊢
  simp [List.foldlM_append, h, hexDigit?_digitChar d hd, hd]

theorem numberInBase?_lastDigits {width n : Nat} (h : n < 10 ^ width) :
    numberInBase? 10 (lastDigits width n) = some n := by
  induction width generalizing n with
  | zero =>
    cases Nat.lt_one_iff.1 h
    rfl
  | succ width ih =>
    have hdiv : n / 10 < 10 ^ width := by
      rw [Nat.pow_succ] at h
      omega
    rw [lastDigits, numberInBase?_concat (ih hdiv) (Nat.mod_lt _ (by decide)), Nat.div_add_mod]

/-- Digits are the last digits of the number that they write. -/
theorem exists_lastDigits (cs : List Char) (h : ∀ c ∈ cs, c.isDigit) :
    ∃ n < 10 ^ cs.length, cs = lastDigits cs.length n := by
  induction cs using List.reverseRecOn with
  | nil => exact ⟨0, by simp, rfl⟩
  | append_singleton cs c ih =>
    obtain ⟨n, hn, heq⟩ := ih fun d hd => h d (by simp [hd])
    obtain ⟨d, hd, rfl⟩ := exists_digitChar (h c (by simp))
    refine ⟨10 * n + d, ?_, ?_⟩
    · rw [List.length_append, List.length_singleton, Nat.pow_succ]
      omega
    · rw [List.length_append, List.length_singleton, lastDigits, Nat.mul_add_div (by decide),
        Nat.div_eq_of_lt hd, Nat.add_zero, ← heq, Nat.mul_add_mod, Nat.mod_eq_of_lt hd]

theorem numberInBase?_toDigits (n : Nat) : numberInBase? 10 (Nat.toDigits 10 n) = some n := by
  induction n using Nat.strongRecOn with
  | _ n ih =>
    by_cases h : n < 10
    · rw [Nat.toDigits_of_lt_base h]
      simpa using @numberInBase?_concat [] 0 _ rfl h
    · rw [Nat.toDigits_eq_if (by decide), if_neg h,
        numberInBase?_concat (ih (n / 10) (by omega)) (Nat.mod_lt _ (by decide)), Nat.div_add_mod]

theorem isDigit_of_mem_toString {n : Nat} {c : Char} (h : c ∈ (toString n).toList) : c.isDigit := by
  rw [Nat.toString_eq_repr, Nat.toList_repr] at h
  exact Nat.isDigit_of_mem_toDigits (by decide) (by decide) h

theorem numberInBase?_toString (n : Nat) : numberInBase? 10 (toString n).toList = some n := by
  rw [Nat.toString_eq_repr, Nat.toList_repr]
  exact numberInBase?_toDigits n

theorem isDigit_of_mem_padded {width n : Nat} {c : Char} (h : c ∈ (padded width n).toList) :
    c.isDigit := by
  rw [padded, String.toList_append, String.toList_ofList, List.mem_append] at h
  rcases h with h | h
  · rw [List.eq_of_mem_replicate h]
    decide
  · exact isDigit_of_mem_toString h

/-- A number that is filled up with zeros is read back, however long it is. -/
theorem numberInBase?_padded (width n : Nat) : numberInBase? 10 (padded width n).toList = some n := by
  have hzeros (zeros : Nat) (cs : List Char) :
      numberInBase? 10 (List.replicate zeros '0' ++ cs) = numberInBase? 10 cs := by
    induction zeros with
    | zero => rfl
    | succ zeros ih => exact ih
  rw [padded, String.toList_append, String.toList_ofList, hzeros]
  exact numberInBase?_toString n

theorem lastDigits_zero (width : Nat) : lastDigits width 0 = List.replicate width '0' := by
  induction width with
  | zero => rfl
  | succ width ih =>
    rw [lastDigits, Nat.zero_div, ih, List.replicate_succ']
    rfl

/-- A number that is not too long is filled up to its last digits. -/
theorem toList_padded {width n : Nat} (hw : 0 < width) (h : n < 10 ^ width) :
    (padded width n).toList = lastDigits width n := by
  have hpad : ∀ {width n : Nat}, 0 < width → n < 10 ^ width →
      List.replicate (width - (Nat.toDigits 10 n).length) '0' ++ Nat.toDigits 10 n =
        lastDigits width n := by
    intro width
    induction width with
    | zero => simp
    | succ width ih =>
      intro n _ h
      by_cases hn : n < 10
      · rw [Nat.toDigits_of_lt_base hn, lastDigits, Nat.div_eq_of_lt hn, lastDigits_zero,
          Nat.mod_eq_of_lt hn]
        rfl
      · have hwidth : 0 < width := by
          rcases Nat.eq_zero_or_pos width with rfl | hpos
          · omega
          · exact hpos
        have hdiv : n / 10 < 10 ^ width := by
          rw [Nat.pow_succ] at h
          omega
        rw [Nat.toDigits_eq_if (by decide), if_neg hn, lastDigits, ← ih hwidth hdiv,
          List.length_append, List.append_assoc]
        congr 2
        simp
  rw [padded, String.toList_append, String.toList_ofList, Nat.toString_eq_repr, ← String.length_toList,
    Nat.toList_repr]
  exact hpad hw h

/-- Of two texts of one length the smaller one stays smaller with anything behind it. -/
theorem append_lt_append {cs ds : List Char} (h : cs < ds) (hlen : cs.length = ds.length)
    (as bs : List Char) : cs ++ as < ds ++ bs := by
  induction h with
  | nil => cases hlen
  | cons _ ih => exact .cons (ih (by simpa using hlen))
  | rel h => exact .rel h

theorem append_left_lt (cs : List Char) {as bs : List Char} (h : as < bs) : cs ++ as < cs ++ bs := by
  induction cs with
  | nil => exact h
  | cons c cs ih => exact .cons ih

theorem lastDigits_lt {width n m : Nat} (h : n < m) (hm : m < 10 ^ width) :
    lastDigits width n < lastDigits width m := by
  have hdigit : ∀ d < 10, ∀ e < d, Nat.digitChar e < Nat.digitChar d := by decide
  induction width generalizing n m with
  | zero => omega
  | succ width ih =>
    rw [Nat.pow_succ] at hm
    rw [lastDigits, lastDigits]
    by_cases hdiv : n / 10 < m / 10
    · exact append_lt_append (ih hdiv (by omega)) (by simp) _ _
    · have heq : n / 10 = m / 10 := by omega
      rw [heq]
      exact append_left_lt _ (.rel (hdigit _ (Nat.mod_lt _ (by decide)) _ (by omega)))

end ManifestUpkeep.Text
