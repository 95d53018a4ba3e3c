import Mathlib.Algebra.Ring.Rat
import Mathlib.Algebra.Order.Ring.Unbundled.Rat

/-!
# Numbers with infinities and a not-a-number

Floating-point arithmetic without its rounding: finite values are exact rationals, and the
two infinities and the not-a-number follow the IEEE rules.  Comparisons with the
not-a-number are false, so a maximum or minimum of two values depends on their order.

## Main definitions

* `ExtRat` — the numbers.
* `ExtRat.lt`, `ExtRat.le`, `ExtRat.pyMax`, `ExtRat.pyMin` — comparisons as Python makes them.
-/

namespace OcrOrchestrator.Lib

/-- A finite number, an infinity, or not a number. -/
inductive ExtRat where
  | fin (q : ℚ)
  | inf
  | negInf
  | nan
deriving DecidableEq

namespace ExtRat

def neg : ExtRat → ExtRat
  | fin q => fin (-q)
  | inf => negInf
  | negInf => inf
  | nan => nan

/-- The sign; the not-a-number has none. -/
def sign : ExtRat → ℤ
  | fin q => q.num.sign
  | inf => 1
  | negInf => -1
  | nan => 0

/-- The infinity of a sign; without a sign, not a number. -/
def infinity (s : ℤ) : ExtRat := if 0 < s then inf else if s < 0 then negInf else nan

def add : ExtRat → ExtRat → ExtRat
  | fin p, fin q => fin (p + q)
  | nan, _ => nan
  | _, nan => nan
  | inf, negInf => nan
  | negInf, inf => nan
  | inf, _ => inf
  | negInf, _ => negInf
  | fin _, y => y

def sub (x y : ExtRat) : ExtRat := x.add y.neg

def mul : ExtRat → ExtRat → ExtRat
  | fin p, fin q => fin (p * q)
  | nan, _ => nan
  | _, nan => nan
  | x, y => infinity (x.sign * y.sign)

/-- Division by a number other than zero. -/
def div : ExtRat → ExtRat → ExtRat
  | fin p, fin q => fin (p / q)
  | nan, _ => nan
  | _, nan => nan
  | fin _, _ => fin 0
  | x, fin q => infinity (x.sign * q.num.sign)
  | _, _ => nan

def lt : ExtRat → ExtRat → Bool
  | fin p, fin q => p < q
  | fin _, inf => true
  | negInf, fin _ => true
  | negInf, inf => true
  | _, _ => false

def le : ExtRat → ExtRat → Bool
  | fin p, fin q => p ≤ q
  | nan, _ => false
  | _, nan => false
  | negInf, _ => true
  | _, inf => true
  | _, _ => false

/-- `max(x, y)`: the first, unless the second is greater. -/
def pyMax (x y : ExtRat) : ExtRat := if x.lt y then y else x

/-- `min(x, y)`: the first, unless the second is less. -/
def pyMin (x y : ExtRat) : ExtRat := if y.lt x then y else x

@[simp] theorem pyMax_fin (p q : ℚ) : pyMax (fin p) (fin q) = fin (max p q) := by
  by_cases h : p < q
  · simp [pyMax, lt, h, max_eq_right h.le]
  · simp [pyMax, lt, h, max_eq_left (not_lt.1 h)]

@[simp] theorem pyMin_fin (p q : ℚ) : pyMin (fin p) (fin q) = fin (min p q) := by
  by_cases h : q < p
  · simp [pyMin, lt, h, min_eq_right h.le]
  · simp [pyMin, lt, h, min_eq_left (not_lt.1 h)]

@[simp] theorem sub_fin (p q : ℚ) : (fin p).sub (fin q) = fin (p - q) := by
  simp [sub, neg, add, sub_eq_add_neg]

/-- A part over what is left of a sum without it: the quotient is finite or not a number,
unless nothing positive is left. -/
theorem div_sub_cases (x s : ExtRat) (h : (s.sub x).le (fin 0) = false) :
    (∃ q, x.div (s.sub x) = fin q) ∨ x.div (s.sub x) = nan := by
  cases x with
  | fin p => cases s <;> simp [sub, neg, add, div]
  | nan => exact Or.inr (by cases s <;> rfl)
  | inf => cases s <;> simp_all [sub, neg, add, div, le]
  | negInf => cases s <;> simp [sub, neg, add, div]

end ExtRat
end OcrOrchestrator.Lib
