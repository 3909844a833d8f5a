import Mathlib.Data.List.Nodup
import Mathlib.Logic.Function.Basic

/-!
# Association lists with classes of keys

The keys are compared by their class `f k`. A list that has at most one entry of every class stands
for a function on the keys; an entry is replaced by deleting it and adding the new one at the end.
-/

namespace Libobject.Assoc

variable {K V C : Type*} [DecidableEq C] (f : K → C)

/-- The value of the first entry of the class of `k`. -/
def lookup (l : List (K × V)) (k : K) : Option V :=
  (l.find? fun e ↦ f e.1 = f k).map Prod.snd

/-- The first entry of the class of `k` goes and `(k, v)` is added at the end. -/
def replace (l : List (K × V)) (k : K) (v : V) : List (K × V) :=
  l.eraseP (fun e ↦ f e.1 = f k) ++ [(k, v)]

/-- No class has two entries. -/
def Distinct (l : List (K × V)) : Prop := l.Pairwise fun a b ↦ f a.1 ≠ f b.1

/-- The function with the value `v` for all keys of the class of `k`. -/
def updated (g : K → Option V) (k : K) (v : V) (k' : K) : Option V :=
  if f k = f k' then some v else g k'

variable {f}

omit [DecidableEq C] in
theorem distinct_nil : Distinct f ([] : List (K × V)) := List.Pairwise.nil

theorem Distinct.of_mem_eraseP {l : List (K × V)} (h : Distinct f l) {k : K} {e : K × V}
    (he : e ∈ l.eraseP fun e ↦ f e.1 = f k) : f e.1 ≠ f k := by
  induction l with
  | nil => exact (List.not_mem_nil he).elim
  | cons a l ih =>
    obtain ⟨hfirst, hrest⟩ := List.pairwise_cons.mp h
    by_cases ha : f a.1 = f k
    · rw [List.eraseP_cons_of_pos (by simpa using ha)] at he
      exact fun heq ↦ hfirst e he (ha.trans heq.symm)
    · rw [List.eraseP_cons_of_neg (by simpa using ha)] at he
      rcases List.mem_cons.mp he with rfl | he
      · exact ha
      · exact ih hrest he

theorem Distinct.replace {l : List (K × V)} (h : Distinct f l) (k : K) (v : V) :
    Distinct f (replace f l k v) := by
  refine List.pairwise_append.mpr ⟨h.sublist (List.eraseP_sublist), List.pairwise_singleton _ _,
    fun a ha b hb ↦ ?_⟩
  rw [List.mem_singleton.mp hb]
  exact h.of_mem_eraseP ha

theorem find?_eraseP {l : List (K × V)} {k k' : K} (hk : f k ≠ f k') :
    (l.eraseP fun e ↦ f e.1 = f k).find? (fun e ↦ f e.1 = f k') =
      l.find? fun e ↦ f e.1 = f k' := by
  induction l with
  | nil => rfl
  | cons a l ih =>
    by_cases ha : f a.1 = f k
    · have ha' : ¬ f a.1 = f k' := fun heq ↦ hk (ha.symm.trans heq)
      rw [List.eraseP_cons_of_pos (by simpa using ha), List.find?_cons_of_neg (by simpa using ha')]
    · rw [List.eraseP_cons_of_neg (by simpa using ha), List.find?_cons, List.find?_cons, ih]

theorem lookup_replace {l : List (K × V)} (h : Distinct f l) (k : K) (v : V) :
    lookup f (replace f l k v) = updated f (lookup f l) k v := by
  funext k'
  rw [lookup, replace, List.find?_append, updated]
  by_cases hk : f k = f k'
  · have hnone : (l.eraseP fun e ↦ f e.1 = f k).find? (fun e ↦ f e.1 = f k') = none := by
      refine List.find?_eq_none.mpr fun e he ↦ ?_
      have hne := h.of_mem_eraseP he
      rw [hk] at hne
      simpa using hne
    rw [if_pos hk, hnone, Option.none_or, List.find?_singleton, if_pos (decide_eq_true hk)]
    rfl
  · rw [if_neg hk, find?_eraseP hk, List.find?_singleton, if_neg (by simpa using hk),
      Option.or_none]
    rfl

end Libobject.Assoc
