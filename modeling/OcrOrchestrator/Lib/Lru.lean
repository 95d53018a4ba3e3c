import OcrOrchestrator.Lib.Dict
import Mathlib.Data.List.Dedup

/-!
# Dictionaries in order of use

A bounded dictionary that keeps the items used last: using a key moves it to the end, and what
is over the bound is dropped from the front.  After any sequence of uses the keys are the last
ones of the sequence, each at its last use; so a key is still there unless as many others as the
bound were used since.

## Main definitions

* `setLast`, `moveToEnd`, `evict` — the operations.

## Main results

* `evict_touch` — dropping early or late makes no difference.
* `mem_evict_dedup` — when a key is still there.
-/

namespace OcrOrchestrator.Lib.Lru
variable {α K V : Type}

/-- Drop from the front what is over the bound. -/
def evict (n : ℕ) (l : List α) : List α := l.drop (l.length - n)

theorem evict_of_length_le {n : ℕ} {l : List α} (h : l.length ≤ n) : evict n l = l := by
  rw [evict, Nat.sub_eq_zero_of_le h, List.drop_zero]

theorem evict_append_of_le {n : ℕ} (l : List α) {m : List α} (h : n ≤ m.length) :
    evict n (l ++ m) = evict n m := by
  have hsub : (l ++ m).length - n = l.length + (m.length - n) := by
    rw [List.length_append]
    omega
  rw [evict, hsub, List.drop_append, evict]
  simp

theorem map_evict {β : Type} (f : α → β) (n : ℕ) (l : List α) :
    (evict n l).map f = evict n (l.map f) := by
  rw [evict, evict, List.map_drop, List.length_map]

theorem length_evict_le (n : ℕ) (l : List α) : (evict n l).length ≤ n := by
  rw [evict, List.length_drop]
  omega

/-- What is used last is still there. -/
theorem mem_evict_concat_self {n : ℕ} (hn : 1 ≤ n) (l : List α) (k : α) : k ∈ evict n (l ++ [k]) := by
  have hlen : (l ++ [k]).length - n ≤ l.length := by
    rw [List.length_append, List.length_singleton]
    omega
  rw [evict, List.drop_append_of_le_length hlen]
  exact List.mem_append_right _ (List.mem_singleton.mpr rfl)

/-- A new item drops the first one of a full list, and nothing else. -/
theorem mem_evict_concat {n : ℕ} {l : List α} {a : α} (k : α) (hlen : l.length ≤ n) (ha : a ∈ l)
    (hroom : l.length < n ∨ l.head? ≠ some a) : a ∈ evict n (l ++ [k]) := by
  rcases Nat.lt_or_ge l.length n with hlt | hge
  · have hfits : (l ++ [k]).length ≤ n := by
      rw [List.length_append, List.length_singleton]
      omega
    rw [evict_of_length_le hfits]
    exact List.mem_append_left _ ha
  · obtain rfl : n = l.length := Nat.le_antisymm hge hlen
    cases l with
    | nil => cases ha
    | cons x xs =>
      have hx : x ≠ a := by simpa using hroom
      have hone : evict (x :: xs).length (x :: xs ++ [k]) = xs ++ [k] := by
        rw [evict, List.length_append, List.length_singleton, Nat.add_sub_cancel_left]
        rfl
      rw [hone]
      exact List.mem_append_left _ ((List.mem_cons.mp ha).resolve_left hx.symm)

theorem evict_sublist (n : ℕ) (l : List α) : (evict n l).Sublist l := List.drop_sublist _ _

section Recency
variable [DecidableEq α]

theorem dedup_concat (ks : List α) (k : α) :
    (ks ++ [k]).dedup = ks.dedup.filter (· ≠ k) ++ [k] := by
  induction ks with
  | nil => simp
  | cons a ks ih =>
    by_cases hmem : a ∈ ks
    · rw [List.cons_append, List.dedup_cons_of_mem (by simp [hmem]), ih,
        List.dedup_cons_of_mem hmem]
    · by_cases hak : a = k
      · subst hak
        rw [List.cons_append, List.dedup_cons_of_mem (by simp), ih,
          List.dedup_cons_of_notMem hmem]
        simp
      · rw [List.cons_append, List.dedup_cons_of_notMem (by simp [hmem, hak]), ih,
          List.dedup_cons_of_notMem hmem]
        simp [hak]

theorem length_le_filter_ne {l : List α} (h : l.Nodup) (k : α) :
    l.length ≤ (l.filter (· ≠ k)).length + 1 := by
  have herase : l.erase k = l.filter (· ≠ k) := by
    rw [h.erase_eq_filter]
    exact List.filter_congr fun x _ => Bool.eq_iff_iff.2 (by simp)
  rw [← herase, List.length_erase]
  split <;> omega

/-- Using a key of a list that was cut is using it before the cut. -/
theorem evict_touch {n : ℕ} {l : List α} (h : l.Nodup) (k : α) :
    evict n ((evict n l).filter (· ≠ k) ++ [k]) = evict n (l.filter (· ≠ k) ++ [k]) := by
  rcases Nat.le_total l.length n with hle | hle
  · rw [evict_of_length_le hle]
  · have hsplit : l = l.take (l.length - n) ++ evict n l := (List.take_append_drop _ _).symm
    have hlen : (evict n l).length = n := by
      rw [evict, List.length_drop]
      omega
    have hfilter := length_le_filter_ne (h.sublist (evict_sublist n l)) k
    have hkept : n ≤ ((evict n l).filter (· ≠ k) ++ [k]).length := by
      rw [List.length_append, List.length_singleton]
      omega
    conv_rhs => rw [hsplit, List.filter_append, List.append_assoc]
    exact (evict_append_of_le _ hkept).symm

/-- A key is still there unless as many others as the bound were used since. -/
theorem mem_evict_dedup {n : ℕ} (pre : List α) {k : α} {mid : List α} (h : k ∉ mid) :
    k ∈ evict n (pre ++ k :: mid).dedup ↔ mid.dedup.length < n := by
  obtain ⟨front, hfront⟩ : ∃ front, (pre ++ k :: mid).dedup = front ++ k :: mid.dedup := by
    rw [List.dedup_append, List.dedup_cons_of_notMem h]
    obtain ⟨front, hsuffix⟩ := List.suffix_union_right pre (k :: mid.dedup)
    exact ⟨front, hsuffix.symm⟩
  have hnodup := List.nodup_dedup (pre ++ k :: mid)
  rw [hfront] at hnodup ⊢
  constructor
  · intro hmem
    by_contra hge
    have hn : n ≤ mid.dedup.length := by omega
    have hdrop : evict n (front ++ k :: mid.dedup) = evict n mid.dedup := by
      rw [List.append_cons, evict_append_of_le _ hn]
    rw [hdrop] at hmem
    exact h (List.mem_dedup.1 ((evict_sublist n _).mem hmem))
  · intro hlt
    have hsub : (k :: mid.dedup).Sublist (evict n (front ++ k :: mid.dedup)) := by
      rw [evict, List.length_append, List.drop_append]
      have hzero : front.length + (k :: mid.dedup).length - n - front.length = 0 := by
        simp only [List.length_cons]
        omega
      rw [hzero, List.drop_zero]
      exact List.sublist_append_right _ _
    exact hsub.mem (by simp)

end Recency

section Operations
variable [DecidableEq K]

/-- `d[k] = v` and `d.move_to_end(k)`. -/
def setLast (d : Dict K V) (k : K) (v : V) : Dict K V := d.del k ++ [(k, v)]

/-- `d.move_to_end(k)`, of a key that is there. -/
def moveToEnd (d : Dict K V) (k : K) : Dict K V := (d.get k).elim d fun v => setLast d k v

theorem keys_setLast (d : Dict K V) (k : K) (v : V) :
    (setLast d k v).keys = d.keys.filter (· ≠ k) ++ [k] := by
  simp [setLast, Dict.del, Dict.keys, List.filter_map, Function.comp_def]

theorem keys_setLast_of_get_eq_none {d : Dict K V} {k : K} (h : d.get k = none) (v : V) :
    (setLast d k v).keys = d.keys ++ [k] := by
  rw [keys_setLast, List.filter_eq_self.mpr]
  intro x hx
  simp only [ne_eq, decide_not, Bool.not_eq_eq_eq_not, Bool.not_true, decide_eq_false_iff_not]
  rintro rfl
  exact Dict.get_eq_none_iff.mp h hx

/-- Using a key that is there adds nothing. -/
theorem length_moveToEnd_le (d : Dict K V) (k : K) : (moveToEnd d k).length ≤ d.length := by
  cases hget : d.get k with
  | none => simp [moveToEnd, hget]
  | some v =>
    have hmem : k ∈ d.keys := Dict.get_isSome_iff.1 (by simp [hget])
    have hlt : (d.keys.filter (· ≠ k)).length < d.keys.length :=
      List.length_filter_lt_length_iff_exists.mpr ⟨k, hmem, by simp⟩
    have hkeys := congrArg List.length (keys_setLast d k v)
    simp only [Dict.keys, List.length_map, List.length_append, List.length_singleton] at hkeys hlt
    simp only [moveToEnd, hget, Option.elim_some]
    omega

theorem get_setLast (d : Dict K V) (k k' : K) (v : V) :
    (setLast d k v).get k' = if k = k' then some v else d.get k' := by
  rw [setLast, Dict.get_append, Dict.get_del, Dict.get_cons, Dict.get_nil]
  by_cases hk : k = k'
  · simp [hk]
  · simp [hk]

omit [DecidableEq K] in
theorem keys_evict (n : ℕ) (d : Dict K V) : Dict.keys (evict n d) = evict n d.keys :=
  map_evict _ n d

omit [DecidableEq K] in
theorem nodup_evict {d : Dict K V} (h : d.keys.Nodup) (n : ℕ) : (Dict.keys (evict n d)).Nodup :=
  keys_evict n d ▸ h.sublist (evict_sublist n _)

/-- A key that is still there holds what it held. -/
theorem get_evict {d : Dict K V} (h : d.keys.Nodup) {n : ℕ} {k : K}
    (hk : k ∈ Dict.keys (evict n d)) : Dict.get (evict n d) k = d.get k := by
  obtain ⟨e, he, rfl⟩ := List.mem_map.1 hk
  rw [Dict.get_eq_of_mem (nodup_evict h n) he, Dict.get_eq_of_mem h ((evict_sublist n d).mem he)]

theorem get_evict_eq_none {d : Dict K V} {k : K} (h : d.get k = none) (n : ℕ) :
    Dict.get (evict n d) k = none := by
  rw [Dict.get_eq_none_iff, keys_evict] at *
  exact fun hmem => h ((evict_sublist n _).mem hmem)

theorem nodup_setLast {d : Dict K V} (h : d.keys.Nodup) (k : K) (v : V) :
    (setLast d k v).keys.Nodup := by
  rw [keys_setLast, List.nodup_append]
  refine ⟨h.filter _, by simp, ?_⟩
  simp

end Operations
end OcrOrchestrator.Lib.Lru
