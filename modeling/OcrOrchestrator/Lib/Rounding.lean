import Mathlib.Algebra.Order.Ring.Rat
import Mathlib.Data.Int.Log
import Mathlib.Data.List.Perm.Subperm
import Mathlib.Data.Rat.Floor
import Mathlib.Tactic.FieldSimp
import Mathlib.Tactic.Linarith
import Mathlib.Tactic.Positivity
import Mathlib.Tactic.Ring

/-!
# Rounded arithmetic

A machine number is a rational that its format has, and an operation gives the rounded result of
the exact one.  A program that takes the rounding as a parameter has an exact meaning and one for
each format, and what is proved for every rounding is proved for both.

Numbers that are too large for a format are not: the exponent has no upper end here.

## Main definitions

* `Rounding` — what is needed of a rounding; `Rounding.exact` does nothing.
* `Rounding.sum` — compensated summation, as `sum` does it with floats.
* `binary`, `binary64` — to the nearest number of a binary format, ties to even.

## Main results

* `Rounding.sum_nonneg` — nothing is lost to the sign.
* `Rounding.sum_le_length` — numbers up to 1 add up to no more than there are.
* `Rounding.sum_eq` — a sum that needs no rounding is the sum.
-/

namespace OcrOrchestrator.Lib

/-- A rounding.  The differences of two numbers that are within a factor of two of each other are
exact, and so are doubles, what an addition loses, and the halves of integers up to `2 ^ 53`. -/
structure Rounding where
  round : ℚ → ℚ
  mono : Monotone round
  idem : ∀ x, round (round x) = round x
  neg : ∀ x, round (-x) = -round x
  half : ∀ k : ℕ, k ≤ 2 ^ 53 → round (k / 2) = k / 2
  double : ∀ x, round x = x → round (2 * x) = 2 * x
  near : ∀ x y, round x = x → round y = y → y ≤ x → x ≤ 2 * y → round (x - y) = x - y
  lost : ∀ x y, round x = x → round y = y → 0 ≤ y → y ≤ x →
    round (x + y - round (x + y)) = x + y - round (x + y)

namespace Rounding

/-- The numbers that need no rounding. -/
def Has (R : Rounding) (x : ℚ) : Prop := R.round x = x

instance (R : Rounding) (x : ℚ) : Decidable (R.Has x) := inferInstanceAs (Decidable (_ = _))

def add (R : Rounding) (x y : ℚ) : ℚ := R.round (x + y)

def sub (R : Rounding) (x y : ℚ) : ℚ := R.round (x - y)

def mul (R : Rounding) (x y : ℚ) : ℚ := R.round (x * y)

def div (R : Rounding) (x y : ℚ) : ℚ := R.round (x / y)

/-- No rounding. -/
def exact : Rounding where
  round x := x
  mono := monotone_id
  idem _ := rfl
  neg _ := rfl
  half _ _ := rfl
  double _ _ := rfl
  near _ _ _ _ _ _ := rfl
  lost _ _ _ _ _ _ := rfl

variable {R : Rounding} {x y : ℚ}

theorem has_round (R : Rounding) (x : ℚ) : R.Has (R.round x) := R.idem x

@[simp] theorem round_zero (R : Rounding) : R.round 0 = 0 := by
  have h := R.neg 0
  rw [neg_zero] at h
  linarith

theorem has_zero (R : Rounding) : R.Has 0 := R.round_zero

theorem Has.neg (h : R.Has x) : R.Has (-x) := by rw [Has, R.neg, h]

theorem round_nonneg (h : 0 ≤ x) : 0 ≤ R.round x := R.round_zero ▸ R.mono h

theorem has_natCast {n : ℕ} (h : n ≤ 2 ^ 52) : R.Has n := by
  have hhalf := R.half (2 * n) (by omega)
  rwa [Nat.cast_mul, Nat.cast_ofNat, mul_div_cancel_left₀ _ two_ne_zero] at hhalf

theorem has_one (R : Rounding) : R.Has 1 := by
  have hone := has_natCast (R := R) (Nat.one_le_two_pow (n := 52))
  rwa [Nat.cast_one] at hone

theorem round_le_one (h : x ≤ 1) : R.round x ≤ 1 := by
  have hmono := R.mono h
  rwa [R.has_one] at hmono

/-- A number that the format has bounds what is rounded. -/
theorem Has.round_le (hy : R.Has y) (h : x ≤ y) : R.round x ≤ y := by
  have hmono := R.mono h
  rwa [hy] at hmono

theorem Has.le_round (hx : R.Has x) (h : x ≤ y) : x ≤ R.round y := by
  have hmono := R.mono h
  rwa [hx] at hmono

/-- A quotient of two numbers whose order is known. -/
theorem div_mem (hx : 0 ≤ x) (hxy : x ≤ y) : 0 ≤ R.div x y ∧ R.div x y ≤ 1 :=
  ⟨round_nonneg (div_nonneg hx (hx.trans hxy)), round_le_one (div_le_one_of_le₀ hxy (hx.trans hxy))⟩

/-! ## Summation -/

/-- One addition: the running sum, and what the additions so far have lost. -/
def addLossy (R : Rounding) (acc : ℚ × ℚ) (x : ℚ) : ℚ × ℚ :=
  let t := R.add acc.1 x
  if |x| ≤ |acc.1| then (t, R.add acc.2 (R.add (R.sub acc.1 t) x))
  else (t, R.add acc.2 (R.add (R.sub x t) acc.1))

/-- `sum` of floats: what was lost is added at the end. -/
def sum (R : Rounding) (xs : List ℚ) : ℚ :=
  let acc := xs.foldl R.addLossy (0, 0)
  R.add acc.1 acc.2

/-- What an addition of two numbers loses, computed from the larger one. -/
theorem lost_eq {a b : ℚ} (ha : R.Has a) (hb : R.Has b) (hb0 : 0 ≤ b) (hba : b ≤ a) :
    R.add (R.sub a (R.add a b)) b = a + b - R.add a b := by
  have hle : a ≤ R.add a b := ha.le_round (by linarith)
  have htwo : R.add a b ≤ 2 * a := by
    have hdouble : R.Has (2 * a) := R.double a ha
    exact hdouble.round_le (by linarith)
  have hexact : R.sub a (R.add a b) = a - R.add a b := by
    have hnear : R.round (R.add a b - a) = R.add a b - a := R.near _ _ (R.has_round _) ha hle htwo
    rw [sub, ← neg_sub (R.add a b) a, R.neg, hnear]
  have hlost := R.lost a b ha hb hb0 hba
  rw [hexact, add, sub_add_eq_add_sub]
  exact hlost

/-- One addition of numbers that are not negative. -/
theorem addLossy_eq {s c : ℚ} (hs : R.Has s) (hs0 : 0 ≤ s) (hx : R.Has x) (hx0 : 0 ≤ x) :
    R.addLossy (s, c) x = (R.add s x, R.add c (s + x - R.add s x)) := by
  unfold Rounding.addLossy
  simp only [abs_of_nonneg hx0, abs_of_nonneg hs0]
  split
  · rename_i hle
    rw [lost_eq hs hx hx0 hle]
  · rename_i hlt
    have hcomm : R.add s x = R.add x s := by rw [add, add, add_comm]
    rw [hcomm, lost_eq hx hs hs0 (not_le.mp hlt).le, add_comm x s]

/-- What the additions have lost does not outweigh the sum. -/
structure Covers (R : Rounding) (acc : ℚ × ℚ) : Prop where
  has : R.Has acc.1
  nonneg : 0 ≤ acc.1
  le : -acc.1 ≤ acc.2

theorem Covers.addLossy {acc : ℚ × ℚ} (h : R.Covers acc) (hx : R.Has x) (hx0 : 0 ≤ x) :
    R.Covers (R.addLossy acc x) := by
  obtain ⟨s, c⟩ := acc
  obtain ⟨hs, hs0, hc⟩ := h
  rw [addLossy_eq hs hs0 hx hx0]
  refine ⟨R.has_round _, round_nonneg (add_nonneg hs0 hx0), ?_⟩
  have hneg : R.Has (-R.add s x) := (R.has_round _).neg
  refine hneg.le_round ?_
  simp only at hc
  linarith

theorem sum_nonneg {xs : List ℚ} (h : ∀ x ∈ xs, R.Has x ∧ 0 ≤ x) : 0 ≤ R.sum xs := by
  have hcovers : ∀ acc, R.Covers acc → R.Covers (xs.foldl R.addLossy acc) := by
    induction xs with
    | nil => exact fun acc hacc => hacc
    | cons x xs ih =>
      intro acc hacc
      obtain ⟨hx, hx0⟩ := h x List.mem_cons_self
      exact ih (fun y hy => h y (List.mem_cons_of_mem x hy)) _ (hacc.addLossy hx hx0)
  have hzero : R.Covers (0, 0) := ⟨R.has_zero, le_refl _, by simp⟩
  have hlast := (hcovers (0, 0) hzero).le
  exact round_nonneg (by linarith)

/-- After `n` numbers up to 1.  At most half of `n` has been lost, and if the sum is more than half
of `n` then the rest of `n` is a number that the format has. -/
structure Below (R : Rounding) (n : ℕ) (acc : ℚ × ℚ) : Prop where
  has : R.Has acc.1
  nonneg : 0 ≤ acc.1
  le : acc.1 ≤ n
  lost_le : acc.2 ≤ n / 2
  sum_le : acc.1 + acc.2 ≤ n

/-- An addition in this range loses no more than a half. -/
theorem sub_round_le_half {z : ℚ} {n : ℕ} (hz0 : 0 ≤ z) (hz : z ≤ n) (hn : n ≤ 2 ^ 52) :
    z - R.round z ≤ 1 / 2 := by
  have hfloor : (⌊2 * z⌋₊ : ℚ) ≤ 2 * z := Nat.floor_le (by linarith)
  have hceil : 2 * z < ⌊2 * z⌋₊ + 1 := Nat.lt_floor_add_one _
  have hle : ⌊2 * z⌋₊ ≤ 2 * n := Nat.floor_le_of_le (by push_cast; linarith)
  have hhas : R.Has (⌊2 * z⌋₊ / 2) := R.half _ (by omega)
  have := hhas.le_round (by linarith : (⌊2 * z⌋₊ / 2 : ℚ) ≤ z)
  linarith

theorem Below.addLossy {acc : ℚ × ℚ} {n : ℕ} (h : R.Below n acc) (hx : R.Has x) (hx0 : 0 ≤ x)
    (hx1 : x ≤ 1) (hn : n + 1 ≤ 2 ^ 52) : R.Below (n + 1) (R.addLossy acc x) := by
  obtain ⟨s, c⟩ := acc
  obtain ⟨hs, hs0, hle, hlost, hsum⟩ := h
  simp only at hs0 hle hlost hsum
  have hnext : R.Has ((n + 1 : ℕ) : ℚ) := has_natCast hn
  have hhalf : R.Has ((n + 1 : ℕ) / 2) := R.half _ (by omega)
  push_cast at hnext hhalf
  have ht : R.Has (R.add s x) := R.has_round _
  have htn : R.add s x ≤ n + 1 := hnext.round_le (by linarith)
  have he : s + x - R.add s x ≤ 1 / 2 :=
    sub_round_le_half (n := n + 1) (by linarith) (by push_cast; linarith) hn
  have hcle : R.add c (s + x - R.add s x) ≤ (n + 1) / 2 := hhalf.round_le (by linarith)
  rw [addLossy_eq hs hs0 hx hx0]
  refine ⟨ht, round_nonneg (by linarith), by push_cast; exact htn, by push_cast; exact hcle, ?_⟩
  push_cast
  rcases le_total (n + 1 : ℚ) (2 * R.add s x) with hlarge | hsmall
  · have hrest : R.Has (n + 1 - R.add s x) := R.near _ _ hnext ht htn hlarge
    have hcrest : R.add c (s + x - R.add s x) ≤ n + 1 - R.add s x := hrest.round_le (by linarith)
    linarith
  · linarith

/-- **Numbers up to 1 add up to no more than there are.** -/
theorem sum_le_length {xs : List ℚ} (h : ∀ x ∈ xs, R.Has x ∧ 0 ≤ x ∧ x ≤ 1)
    (hlength : xs.length ≤ 2 ^ 52) : R.sum xs ≤ xs.length := by
  have hbelow : ∀ (rest : List ℚ) (n : ℕ) (acc : ℚ × ℚ), (∀ x ∈ rest, x ∈ xs) →
      n + rest.length ≤ 2 ^ 52 → R.Below n acc →
        R.Below (n + rest.length) (rest.foldl R.addLossy acc) := by
    intro rest
    induction rest with
    | nil => exact fun n acc _ _ hacc => hacc
    | cons x rest ih =>
      intro n acc hsub hn hacc
      obtain ⟨hx, hx0, hx1⟩ := h x (hsub x List.mem_cons_self)
      rw [List.length_cons] at hn ⊢
      have hstep := hacc.addLossy hx hx0 hx1 (by omega)
      have hrest := ih (n + 1) _ (fun y hy => hsub y (List.mem_cons_of_mem x hy)) (by omega) hstep
      rwa [add_right_comm, add_assoc] at hrest
  have hzero : R.Below 0 (0, 0) := ⟨R.has_zero, le_rfl, by simp, by simp, by simp⟩
  have hlast := hbelow xs 0 (0, 0) (fun _ hx => hx) (by omega) hzero
  rw [zero_add] at hlast
  have hhas : R.Has (xs.length : ℚ) := has_natCast hlength
  exact hhas.round_le hlast.sum_le

/-- Every sum of some of the numbers is one that the format has. -/
def Sums (R : Rounding) (xs : List ℚ) : Prop := ∀ ys : List ℚ, ys.Subperm xs → R.Has ys.sum

theorem Sums.subperm {xs ys : List ℚ} (h : R.Sums xs) (hsub : ys.Subperm xs) : R.Sums ys :=
  fun zs hzs => h zs (hzs.trans hsub)

theorem Sums.pair {xs ys : List ℚ} (h : R.Sums (xs ++ ys)) : R.Sums [xs.sum, ys.sum] := by
  intro zs hzs
  obtain ⟨ws, hperm, hsub⟩ := hzs
  rw [← hperm.sum_eq]
  have hcases : ws = [] ∨ ws = [xs.sum] ∨ ws = [ys.sum] ∨ ws = [xs.sum, ys.sum] := by
    simpa [List.sublists] using List.mem_sublists.2 hsub
  rcases hcases with rfl | rfl | rfl | rfl
  · exact R.has_zero
  · rw [List.sum_singleton]
    exact h _ (List.sublist_append_left xs ys).subperm
  · rw [List.sum_singleton]
    exact h _ (List.sublist_append_right xs ys).subperm
  · have hall := h _ (List.Subperm.refl _)
    rwa [List.sum_append, ← List.sum_pair] at hall

theorem sums_singleton (hx : R.Has x) : R.Sums [x] := by
  intro ys hys
  cases ys with
  | nil => exact R.has_zero
  | cons y ys =>
    obtain rfl : ys = [] := by simpa using hys.length_le
    obtain rfl : y = x := by simpa using hys.subset (List.mem_singleton_self y)
    simpa using hx

/-- An exact addition loses nothing. -/
theorem addLossy_of_has {s : ℚ} (hs : R.Has s) (hx : R.Has x) (hsum : R.Has (s + x)) :
    R.addLossy (s, 0) x = (s + x, 0) := by
  have ht : R.add s x = s + x := hsum
  have hleft : R.sub s (s + x) = -x := by
    rw [sub, sub_add_cancel_left]
    exact hx.neg
  have hright : R.sub x (s + x) = -s := by
    rw [sub, sub_add_cancel_right]
    exact hs.neg
  have hlost : R.add (-x) x = 0 := by rw [add, neg_add_cancel, round_zero]
  have hlost' : R.add (-s) s = 0 := by rw [add, neg_add_cancel, round_zero]
  have hzero : R.add 0 0 = 0 := by rw [add, add_zero, round_zero]
  simp only [addLossy, ht, hleft, hright, hlost, hlost', hzero, ite_self]

/-- **A sum that needs no rounding is the sum.** -/
theorem sum_eq {xs : List ℚ} (h : R.Sums xs) : R.sum xs = xs.sum := by
  have hfold : ∀ done rest : List ℚ, done ++ rest = xs →
      rest.foldl R.addLossy (done.sum, 0) = (xs.sum, 0) := by
    intro done rest hxs
    induction rest generalizing done with
    | nil =>
      rw [← hxs, List.append_nil]
      rfl
    | cons x rest ih =>
      have hsplit : done ++ [x] ++ rest = xs := by rw [← hxs, List.append_assoc]; rfl
      have hdone : done.Subperm xs := hxs ▸ (List.sublist_append_left _ _).subperm
      have hx : [x].Subperm xs :=
        hxs ▸ (List.singleton_sublist.mpr (by simp)).subperm
      have hnext : (done ++ [x]).Subperm xs := hsplit ▸ (List.sublist_append_left _ _).subperm
      have hsum := h _ hnext
      rw [List.sum_append, List.sum_singleton] at hsum
      have hone : R.Has x := by simpa using h _ hx
      rw [List.foldl_cons, addLossy_of_has (h _ hdone) hone hsum]
      have hrest := ih (done ++ [x]) hsplit
      rwa [List.sum_append, List.sum_singleton] at hrest
  have hall := hfold [] xs rfl
  rw [List.sum_nil] at hall
  simp only [sum, hall, add, add_zero]
  exact h xs (List.Subperm.refl xs)

/-- Sums that need no rounding may be taken in two steps. -/
theorem sum_append_of_sums {xs ys : List ℚ} (h : R.Sums (xs ++ ys)) :
    R.sum [R.sum xs, R.sum ys] = R.sum (xs ++ ys) := by
  have hx := h.subperm (List.sublist_append_left xs ys).subperm
  have hy := h.subperm (List.sublist_append_right xs ys).subperm
  rw [sum_eq hx, sum_eq hy, sum_eq h.pair, sum_eq h, List.sum_append, List.sum_pair]

theorem sum_perm_of_sums {xs ys : List ℚ} (h : R.Sums xs) (hperm : xs.Perm ys) :
    R.sum xs = R.sum ys := by
  rw [sum_eq h, sum_eq (h.subperm hperm.symm.subperm), hperm.sum_eq]

@[simp] theorem sum_exact (xs : List ℚ) : exact.sum xs = xs.sum := sum_eq fun _ _ => rfl

end Rounding

/-! ## Binary formats -/

/-- The nearest integer, the even one of two. -/
def nearest (y : ℚ) : ℤ :=
  if y - ⌊y⌋ < 1 / 2 then ⌊y⌋
  else if 1 / 2 < y - ⌊y⌋ then ⌊y⌋ + 1
  else if ⌊y⌋ % 2 = 0 then ⌊y⌋ else ⌊y⌋ + 1

theorem nearest_mem (y : ℚ) : ⌊y⌋ ≤ nearest y ∧ nearest y ≤ ⌊y⌋ + 1 := by
  unfold nearest
  split_ifs <;> omega

@[simp] theorem nearest_intCast (n : ℤ) : nearest (n : ℚ) = n := by
  rw [nearest, Int.floor_intCast, sub_self, if_pos (by norm_num)]

theorem nearest_mono {y z : ℚ} (hyz : y ≤ z) : nearest y ≤ nearest z := by
  have hfloor : ⌊y⌋ ≤ ⌊z⌋ := Int.floor_mono hyz
  rcases hfloor.lt_or_eq with hlt | heq
  · have := nearest_mem y
    have := nearest_mem z
    omega
  · -- both between the same two integers
    unfold nearest
    rw [heq]
    split_ifs
    all_goals first
      | omega
      | exact absurd hyz (by rw [heq] at *; linarith)

/-- No integer below is nearer. -/
theorem abs_nearest_sub_le {y : ℚ} {n : ℤ} (h : (n : ℚ) ≤ y) : |nearest y - y| ≤ y - n := by
  have hfloor : (n : ℚ) ≤ ⌊y⌋ := by exact_mod_cast Int.le_floor.mpr h
  have hfloor' : (⌊y⌋ : ℚ) ≤ y := Int.floor_le y
  have hceil : y < ⌊y⌋ + 1 := Int.lt_floor_add_one y
  unfold nearest
  split_ifs
  all_goals
    push_cast
    rw [abs_le]
    constructor <;> linarith

theorem nearest_le {y : ℚ} {n : ℤ} (h : y ≤ n) : nearest y ≤ n :=
  nearest_intCast n ▸ nearest_mono h

theorem le_nearest {y : ℚ} {n : ℤ} (h : (n : ℚ) ≤ y) : n ≤ nearest y :=
  nearest_intCast n ▸ nearest_mono h

section Format
variable (precision : ℕ) (emin : ℤ)

/-- The exponent of the last place of a positive number. -/
def lastPlace (x : ℚ) : ℤ := max (Int.log 2 x + 1 - precision) emin

/-- A positive number, rounded to its last place. -/
def roundPos (x : ℚ) : ℚ :=
  nearest (x / 2 ^ lastPlace precision emin x) * 2 ^ lastPlace precision emin x

/-- The numbers of the format. -/
def InFormat (x : ℚ) : Prop :=
  ∃ m k : ℤ, emin ≤ k ∧ |m| ≤ 2 ^ precision ∧ x = m * 2 ^ k

variable {precision emin}
variable {x y : ℚ} {e n : ℤ}

theorem two_zpow_pos (e : ℤ) : (0 : ℚ) < 2 ^ e := zpow_pos two_pos e

/-- A power of two that is a multiple of the last place. -/
theorem exists_intCast (h : e ≤ n) : ∃ j : ℤ, (2 : ℚ) ^ n = j * 2 ^ e := by
  obtain ⟨d, rfl⟩ := Int.le.dest h
  refine ⟨2 ^ d, ?_⟩
  rw [zpow_add₀ two_ne_zero, zpow_natCast]
  push_cast
  ring

theorem nearest_mul_le (h : e ≤ n) (hx : x ≤ 2 ^ n) : (nearest (x / 2 ^ e) : ℚ) * 2 ^ e ≤ 2 ^ n := by
  obtain ⟨j, hj⟩ := exists_intCast h
  have hdiv : x / 2 ^ e ≤ j := by
    rw [div_le_iff₀ (two_zpow_pos e), ← hj]
    exact hx
  have hle : (nearest (x / 2 ^ e) : ℚ) ≤ j := by exact_mod_cast nearest_le hdiv
  rw [hj]
  exact mul_le_mul_of_nonneg_right hle (two_zpow_pos e).le

theorem le_nearest_mul (h : e ≤ n) (hx : (2 : ℚ) ^ n ≤ x) :
    (2 : ℚ) ^ n ≤ nearest (x / 2 ^ e) * 2 ^ e := by
  obtain ⟨j, hj⟩ := exists_intCast h
  have hdiv : (j : ℚ) ≤ x / 2 ^ e := by
    rw [le_div_iff₀ (two_zpow_pos e), ← hj]
    exact hx
  have hle : (j : ℚ) ≤ nearest (x / 2 ^ e) := by exact_mod_cast le_nearest hdiv
  rw [hj]
  exact mul_le_mul_of_nonneg_right hle (two_zpow_pos e).le

theorem roundPos_nonneg (hx : 0 ≤ x) : 0 ≤ roundPos precision emin x := by
  have hdiv : ((0 : ℤ) : ℚ) ≤ x / 2 ^ lastPlace precision emin x := by
    push_cast
    exact div_nonneg hx (two_zpow_pos _).le
  have hle : (0 : ℚ) ≤ nearest (x / 2 ^ lastPlace precision emin x) := by
    exact_mod_cast le_nearest hdiv
  exact mul_nonneg hle (two_zpow_pos _).le

theorem roundPos_mono (hprecision : 1 ≤ precision) (hx : 0 < x) (hxy : x ≤ y) :
    roundPos precision emin x ≤ roundPos precision emin y := by
  have hlog : Int.log 2 x ≤ Int.log 2 y := Int.log_mono_right hx hxy
  have hplace : lastPlace precision emin x ≤ lastPlace precision emin y := by
    unfold lastPlace
    omega
  rcases hplace.lt_or_eq with hlt | heq
  · -- a power of two is between the two
    have hmin : Int.log 2 x < Int.log 2 y ∧ lastPlace precision emin y ≤ Int.log 2 y := by
      unfold lastPlace at hlt ⊢
      omega
    have hbelow : x ≤ 2 ^ Int.log 2 y :=
      ((Int.lt_zpow_iff_log_lt (b := 2) one_lt_two hx).mpr hmin.1).le
    have habove : (2 : ℚ) ^ Int.log 2 y ≤ y :=
      Int.zpow_log_le_self (b := 2) one_lt_two (hx.trans_le hxy)
    exact (nearest_mul_le (hplace.trans hmin.2) hbelow).trans (le_nearest_mul hmin.2 habove)
  · unfold roundPos
    rw [heq]
    have hdiv : x / 2 ^ lastPlace precision emin y ≤ y / 2 ^ lastPlace precision emin y :=
      div_le_div_of_nonneg_right hxy (two_zpow_pos _).le
    have hle : (nearest (x / 2 ^ lastPlace precision emin y) : ℚ) ≤
        nearest (y / 2 ^ lastPlace precision emin y) := by
      exact_mod_cast nearest_mono hdiv
    exact mul_le_mul_of_nonneg_right hle (two_zpow_pos _).le

/-- What is rounded is in the format. -/
theorem inFormat_roundPos (hx : 0 < x) : InFormat precision emin (roundPos precision emin x) := by
  refine ⟨nearest (x / 2 ^ lastPlace precision emin x), lastPlace precision emin x,
    le_max_right _ _, ?_, rfl⟩
  have hnonneg : ((0 : ℤ) : ℚ) ≤ x / 2 ^ lastPlace precision emin x := by
    push_cast
    exact div_nonneg hx.le (two_zpow_pos _).le
  have hbelow : x / 2 ^ lastPlace precision emin x ≤ ((2 ^ precision : ℤ) : ℚ) := by
    rw [div_le_iff₀ (two_zpow_pos _)]
    have hlt : x < 2 ^ (Int.log 2 x + 1) := Int.lt_zpow_succ_log_self (b := 2) one_lt_two x
    have hexp : Int.log 2 x + 1 ≤ precision + lastPlace precision emin x := by
      unfold lastPlace
      omega
    have hle : (2 : ℚ) ^ (Int.log 2 x + 1) ≤ 2 ^ (precision + lastPlace precision emin x) :=
      zpow_le_zpow_right₀ one_le_two hexp
    rw [zpow_add₀ two_ne_zero precision, zpow_natCast] at hle
    push_cast
    linarith
  rw [abs_of_nonneg (le_nearest hnonneg)]
  exact nearest_le hbelow

/-- What is in the format is left as it is. -/
theorem roundPos_of_inFormat (hprecision : 1 ≤ precision) (hx : 0 < x)
    (h : InFormat precision emin x) : roundPos precision emin x = x := by
  obtain ⟨m, k, hk, hm, rfl⟩ := h
  have hmpos : 0 < m := by
    have : (0 : ℚ) < m := (mul_pos_iff_of_pos_right (two_zpow_pos k)).mp hx
    exact_mod_cast this
  rw [abs_of_pos hmpos] at hm
  obtain ⟨j, hj⟩ : ∃ j : ℤ, (m : ℚ) * 2 ^ k = j * 2 ^ lastPlace precision emin (m * 2 ^ k) := by
    rcases hm.lt_or_eq with hlt | heq
    · have hbelow : (m : ℚ) * 2 ^ k < 2 ^ (precision + k) := by
        rw [zpow_add₀ two_ne_zero, zpow_natCast]
        have : (m : ℚ) < 2 ^ precision := by exact_mod_cast hlt
        exact mul_lt_mul_of_pos_right this (two_zpow_pos k)
      have hlog := (Int.lt_zpow_iff_log_lt (b := 2) one_lt_two hx).mp hbelow
      have hplace : lastPlace precision emin (m * 2 ^ k) ≤ k := by
        unfold lastPlace
        omega
      obtain ⟨j, hj⟩ := exists_intCast hplace
      exact ⟨m * j, by rw [Int.cast_mul, mul_assoc, ← hj]⟩
    · have hpower : (m : ℚ) * 2 ^ k = 2 ^ (precision + k) := by
        rw [zpow_add₀ two_ne_zero, zpow_natCast, heq]
        push_cast
        ring
      have hlog : Int.log 2 ((2 : ℚ) ^ ((precision : ℤ) + k)) = precision + k :=
        Int.log_zpow (b := 2) one_lt_two _
      rw [hpower]
      refine exists_intCast ?_
      unfold lastPlace
      omega
  rw [roundPos]
  nth_rewrite 1 [hj]
  rw [mul_div_cancel_right₀ _ (two_zpow_pos _).ne', nearest_intCast, ← hj]

/-- To the nearest number of the format; zero and negative numbers like positive ones. -/
def toFormat (precision : ℕ) (emin : ℤ) (x : ℚ) : ℚ :=
  if x < 0 then -roundPos precision emin (-x) else roundPos precision emin x

theorem roundPos_zero : roundPos precision emin 0 = 0 := by
  have hnearest : nearest 0 = 0 := nearest_intCast 0
  rw [roundPos, zero_div, hnearest, Int.cast_zero, zero_mul]

theorem toFormat_of_nonneg (hx : 0 ≤ x) : toFormat precision emin x = roundPos precision emin x :=
  if_neg (not_lt.mpr hx)

theorem toFormat_neg (x : ℚ) : toFormat precision emin (-x) = -toFormat precision emin x := by
  rcases lt_trichotomy x 0 with hneg | rfl | hpos
  · rw [toFormat_of_nonneg (by linarith), toFormat, if_pos hneg, neg_neg]
  · rw [neg_zero, toFormat_of_nonneg le_rfl, roundPos_zero, neg_zero]
  · rw [toFormat, if_pos (by linarith), neg_neg, toFormat_of_nonneg hpos.le]

theorem InFormat.neg (h : InFormat precision emin x) : InFormat precision emin (-x) := by
  obtain ⟨m, k, hk, hm, rfl⟩ := h
  exact ⟨-m, k, hk, by rwa [abs_neg], by push_cast; ring⟩

theorem inFormat_toFormat (x : ℚ) : InFormat precision emin (toFormat precision emin x) := by
  rcases lt_trichotomy x 0 with hneg | rfl | hpos
  · rw [toFormat, if_pos hneg]
    exact (inFormat_roundPos (by linarith)).neg
  · rw [toFormat_of_nonneg le_rfl, roundPos_zero]
    exact ⟨0, emin, le_rfl, by simp, by simp⟩
  · rw [toFormat_of_nonneg hpos.le]
    exact inFormat_roundPos hpos

theorem toFormat_of_inFormat (hprecision : 1 ≤ precision) (h : InFormat precision emin x) :
    toFormat precision emin x = x := by
  rcases lt_trichotomy x 0 with hneg | rfl | hpos
  · rw [toFormat, if_pos hneg, roundPos_of_inFormat hprecision (by linarith) h.neg, neg_neg]
  · rw [toFormat_of_nonneg le_rfl, roundPos_zero]
  · rw [toFormat_of_nonneg hpos.le, roundPos_of_inFormat hprecision hpos h]

theorem inFormat_iff (hprecision : 1 ≤ precision) :
    toFormat precision emin x = x ↔ InFormat precision emin x :=
  ⟨fun h => h ▸ inFormat_toFormat x, toFormat_of_inFormat hprecision⟩

theorem toFormat_mono (hprecision : 1 ≤ precision) : Monotone (toFormat precision emin) := by
  have hpos : ∀ {a b : ℚ}, 0 ≤ a → a ≤ b →
      toFormat precision emin a ≤ toFormat precision emin b := by
    intro a b ha hab
    rw [toFormat_of_nonneg ha, toFormat_of_nonneg (ha.trans hab)]
    rcases ha.lt_or_eq with ha | rfl
    · exact roundPos_mono hprecision ha hab
    · rw [roundPos_zero]
      exact roundPos_nonneg hab
  have hzero : toFormat precision emin 0 = 0 := by rw [toFormat_of_nonneg le_rfl, roundPos_zero]
  have hneg : ∀ {a : ℚ}, a ≤ 0 → toFormat precision emin a ≤ 0 := by
    intro a ha
    have h := hpos le_rfl (neg_nonneg.mpr ha)
    rw [hzero, toFormat_neg] at h
    linarith
  intro x y hxy
  rcases le_total 0 x with hx | hx
  · exact hpos hx hxy
  · rcases le_total 0 y with hy | hy
    · have h := hpos le_rfl hy
      rw [hzero] at h
      exact (hneg hx).trans h
    · have h := hpos (neg_nonneg.mpr hy) (neg_le_neg hxy)
      rw [toFormat_neg, toFormat_neg] at h
      linarith

/-- The difference of two numbers within a factor of two: it is a multiple of the smaller of their
last places, and no larger than either of them. -/
theorem InFormat.sub (hx : InFormat precision emin x) (hy : InFormat precision emin y) (hyx : y ≤ x)
    (hxy : x ≤ 2 * y) : InFormat precision emin (x - y) := by
  obtain ⟨m, j, hj, hm, rfl⟩ := hx
  obtain ⟨n, k, hk, hn, rfl⟩ := hy
  have hn0 : (0 : ℚ) ≤ n * 2 ^ k := by linarith
  rcases le_total j k with hjk | hkj
  · obtain ⟨d, hd⟩ := exists_intCast hjk
    have heq : (m : ℚ) * 2 ^ j - n * 2 ^ k = ((m - n * d : ℤ) : ℚ) * 2 ^ j := by
      rw [hd]
      push_cast
      ring
    refine ⟨m - n * d, j, hj, ?_, heq⟩
    have hpos : (0 : ℚ) ≤ ((m - n * d : ℤ) : ℚ) * 2 ^ j := by linarith
    have hle : ((m - n * d : ℤ) : ℚ) * 2 ^ j ≤ m * 2 ^ j := by linarith
    have hpos' : (0 : ℚ) ≤ ((m - n * d : ℤ) : ℚ) := nonneg_of_mul_nonneg_left hpos (two_zpow_pos j)
    have hle' : ((m - n * d : ℤ) : ℚ) ≤ m := le_of_mul_le_mul_right hle (two_zpow_pos j)
    rw [abs_of_nonneg (by exact_mod_cast hpos')]
    exact (by exact_mod_cast hle' : m - n * d ≤ m).trans ((le_abs_self m).trans hm)
  · obtain ⟨d, hd⟩ := exists_intCast hkj
    have heq : (m : ℚ) * 2 ^ j - n * 2 ^ k = ((m * d - n : ℤ) : ℚ) * 2 ^ k := by
      rw [hd]
      push_cast
      ring
    refine ⟨m * d - n, k, hk, ?_, heq⟩
    have hpos : (0 : ℚ) ≤ ((m * d - n : ℤ) : ℚ) * 2 ^ k := by linarith
    have hle : ((m * d - n : ℤ) : ℚ) * 2 ^ k ≤ n * 2 ^ k := by linarith
    have hpos' : (0 : ℚ) ≤ ((m * d - n : ℤ) : ℚ) := nonneg_of_mul_nonneg_left hpos (two_zpow_pos k)
    have hle' : ((m * d - n : ℤ) : ℚ) ≤ n := le_of_mul_le_mul_right hle (two_zpow_pos k)
    rw [abs_of_nonneg (by exact_mod_cast hpos')]
    exact (by exact_mod_cast hle' : m * d - n ≤ n).trans ((le_abs_self n).trans hn)

/-- A number that the format has, or a power of two above it, is a multiple of the last place of
a larger number. -/
theorem InFormat.exists_multiple (hprecision : 1 ≤ precision) (hx : InFormat precision emin x)
    {z : ℚ} (hz : 0 < z) (hxz : x ≤ z) :
    ∃ i : ℤ, x ≤ i * 2 ^ lastPlace precision emin z ∧ i * 2 ^ lastPlace precision emin z ≤ z := by
  obtain ⟨m, j, hj, hm, rfl⟩ := hx
  rcases le_or_gt (lastPlace precision emin z) j with hle | hlt
  · obtain ⟨d, hd⟩ := exists_intCast hle
    refine ⟨m * d, ?_, ?_⟩
    · rw [hd]
      push_cast
      linarith
    · rw [hd] at hxz
      push_cast
      linarith
  · have hlog : lastPlace precision emin z = Int.log 2 z + 1 - precision := by
      unfold lastPlace at hlt ⊢
      omega
    obtain ⟨d, hd⟩ := exists_intCast (by omega : lastPlace precision emin z ≤ Int.log 2 z)
    have hpower : (2 : ℚ) ^ Int.log 2 z ≤ z := Int.zpow_log_le_self (b := 2) one_lt_two hz
    refine ⟨d, ?_, by rwa [← hd]⟩
    have hm' : (m : ℚ) ≤ 2 ^ precision := by exact_mod_cast (le_abs_self m).trans hm
    have hexp : (precision : ℤ) + j ≤ Int.log 2 z := by omega
    calc (m : ℚ) * 2 ^ j ≤ 2 ^ precision * 2 ^ j :=
          mul_le_mul_of_nonneg_right hm' (two_zpow_pos j).le
      _ = 2 ^ ((precision : ℤ) + j) := by rw [zpow_add₀ two_ne_zero, zpow_natCast]
      _ ≤ 2 ^ Int.log 2 z := zpow_le_zpow_right₀ one_le_two hexp
      _ = d * 2 ^ lastPlace precision emin z := hd

/-- No number of the format below is nearer. -/
theorem InFormat.abs_roundPos_sub_le (hprecision : 1 ≤ precision) (hx : InFormat precision emin x)
    {z : ℚ} (hz : 0 < z) (hxz : x ≤ z) : |roundPos precision emin z - z| ≤ z - x := by
  obtain ⟨i, hxi, hiz⟩ := hx.exists_multiple hprecision hz hxz
  have hplace := two_zpow_pos (lastPlace precision emin z)
  have hdiv : (i : ℚ) ≤ z / 2 ^ lastPlace precision emin z := by rwa [le_div_iff₀ hplace]
  have hnear := mul_le_mul_of_nonneg_right (abs_nearest_sub_le hdiv) hplace.le
  rw [sub_mul, div_mul_cancel₀ _ hplace.ne', ← abs_of_pos hplace, ← abs_mul, abs_of_pos hplace,
    sub_mul, div_mul_cancel₀ _ hplace.ne'] at hnear
  unfold roundPos
  linarith

/-- A multiple of a power of two that is no larger than a number of the format with this power. -/
theorem inFormat_of_abs_le {i : ℤ} {k : ℤ} {m : ℤ} (hk : emin ≤ k) (hm : |m| ≤ 2 ^ precision)
    (h : |(i : ℚ) * 2 ^ k| ≤ m * 2 ^ k) : InFormat precision emin (i * 2 ^ k) := by
  refine ⟨i, k, hk, ?_, rfl⟩
  rw [abs_mul, abs_of_pos (two_zpow_pos k)] at h
  have hle : |(i : ℚ)| ≤ m := le_of_mul_le_mul_right h (two_zpow_pos k)
  have hle' : |i| ≤ m := by exact_mod_cast hle
  exact hle'.trans ((le_abs_self m).trans hm)

/-- What is rounded and what that loses are multiples of the same power of two. -/
theorem sub_roundPos_multiple (precision : ℕ) (emin : ℤ) {z : ℚ} {p k : ℤ} (hz : z = p * 2 ^ k) :
    ∃ i : ℤ, z - roundPos precision emin z = i * 2 ^ k := by
  unfold roundPos
  generalize lastPlace precision emin z = place
  rcases le_or_gt k place with hle | hlt
  · obtain ⟨d, hd⟩ := exists_intCast hle
    generalize nearest (z / 2 ^ place) = n
    refine ⟨p - n * d, ?_⟩
    rw [hz, hd]
    push_cast
    ring
  · obtain ⟨d, hd⟩ := exists_intCast hlt.le
    have hint : z / 2 ^ place = ((p * d : ℤ) : ℚ) := by
      rw [div_eq_iff (two_zpow_pos place).ne', hz, hd]
      push_cast
      ring
    refine ⟨0, ?_⟩
    rw [hint, nearest_intCast, ← hint, div_mul_cancel₀ _ (two_zpow_pos place).ne']
    simp

/-- What an addition loses: a multiple of the smaller of two last places, and no larger than
either number. -/
theorem InFormat.lost (hprecision : 1 ≤ precision) (hx : InFormat precision emin x)
    (hy : InFormat precision emin y) (hy0 : 0 ≤ y) (hyx : y ≤ x) :
    InFormat precision emin (x + y - toFormat precision emin (x + y)) := by
  rcases (hy0.trans hyx).eq_or_lt with rfl | hx0
  · obtain rfl : y = 0 := le_antisymm hyx hy0
    rw [add_zero, toFormat_of_nonneg le_rfl, roundPos_zero, sub_zero]
    exact hx
  have hz : 0 < x + y := by linarith
  have herror : |x + y - toFormat precision emin (x + y)| ≤ y := by
    rw [toFormat_of_nonneg hz.le, abs_sub_comm]
    have := hx.abs_roundPos_sub_le hprecision hz (by linarith)
    linarith
  rw [toFormat_of_nonneg hz.le] at herror ⊢
  obtain ⟨m, j, hj, hm, rfl⟩ := hx
  obtain ⟨n, k, hk, hn, rfl⟩ := hy
  rcases le_total j k with hjk | hkj
  · obtain ⟨d, hd⟩ := exists_intCast hjk
    have hsum : (m : ℚ) * 2 ^ j + n * 2 ^ k = ((m + n * d : ℤ) : ℚ) * 2 ^ j := by
      rw [hd]
      push_cast
      ring
    obtain ⟨i, hi⟩ := sub_roundPos_multiple precision emin hsum
    rw [hi] at herror ⊢
    exact inFormat_of_abs_le hj hm (herror.trans hyx)
  · obtain ⟨d, hd⟩ := exists_intCast hkj
    have hsum : (m : ℚ) * 2 ^ j + n * 2 ^ k = ((m * d + n : ℤ) : ℚ) * 2 ^ k := by
      rw [hd]
      push_cast
      ring
    obtain ⟨i, hi⟩ := sub_roundPos_multiple precision emin hsum
    rw [hi] at herror ⊢
    exact inFormat_of_abs_le hk hn herror

end Format

/-- A binary format: its precision, and the exponent of the last place of its smallest numbers. -/
def binary (precision : ℕ) (emin : ℤ) (hprecision : 53 ≤ precision) (hemin : emin ≤ -1) :
    Rounding where
  round := toFormat precision emin
  mono := toFormat_mono (by omega)
  idem x := toFormat_of_inFormat (by omega) (inFormat_toFormat x)
  neg := toFormat_neg
  half k hk := by
    have hpower : (2 : ℤ) ^ 53 ≤ 2 ^ precision := pow_le_pow_right₀ one_le_two hprecision
    refine toFormat_of_inFormat (by omega) ⟨k, -1, hemin, ?_, ?_⟩
    · rw [Nat.abs_cast]
      exact (by exact_mod_cast hk : (k : ℤ) ≤ 2 ^ 53).trans hpower
    · rw [zpow_neg_one, Int.cast_natCast, div_eq_mul_inv]
  double x hx := by
    obtain ⟨m, k, hk, hm, rfl⟩ := (inFormat_iff (by omega)).mp hx
    refine toFormat_of_inFormat (by omega) ⟨m, k + 1, by omega, hm, ?_⟩
    rw [zpow_add_one₀ two_ne_zero]
    ring
  near x y hx hy hyx hxy := by
    rw [inFormat_iff (by omega)] at hx hy ⊢
    exact hx.sub hy hyx hxy
  lost x y hx hy hy0 hyx := by
    have hprecision' : 1 ≤ precision := by omega
    rw [inFormat_iff hprecision'] at hx hy ⊢
    exact hx.lost hprecision' hy hy0 hyx

/-- Doubles. -/
def binary64 : Rounding :=
  binary 53 (-1074) (Nat.le_refl 53)
    (Int.neg_le_neg (Int.ofNat_le.mpr (Nat.one_le_of_lt (Nat.lt_succ_self 1073))))

/-- `0.1 + 0.2` is not `0.3`. -/
example : binary64.add (binary64.round (1 / 10)) (binary64.round (2 / 10)) ≠
    binary64.round (3 / 10) := by decide +kernel

end OcrOrchestrator.Lib
