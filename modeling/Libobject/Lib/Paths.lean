import Libobject.Lib.Scan
import Mathlib.Data.List.Basic
import Mathlib.Data.List.Infix

/-!
# Paths

A path leads from directory to directory: a dot stays, two dots go up to the parent, where the top
is its own parent, and a name goes down. Going up takes back the name before it or, where there is
none, leaves the directory that the path began in. So a path comes to the same place as its route,
which is a number of times up and then the names that are left.
-/

namespace Libobject.Paths

open Scan

variable {α : Type*}

inductive Step (α : Type*)
  | stay
  | up
  | down (name : α)
  deriving DecidableEq

/-- The place that a path leads to from a directory. -/
def walk : List α → List (Step α) → List α
  | dir, [] => dir
  | dir, .stay :: path => walk dir path
  | dir, .up :: path => walk dir.dropLast path
  | dir, .down name :: path => walk (dir ++ [name]) path

/-- So many times up, and then down the names. -/
structure Route (α : Type*) where
  ups : ℕ
  names : List α

namespace Route

def go (r : Route α) : Step α → Route α
  | .stay => r
  | .up => if r.names.isEmpty then ⟨r.ups + 1, []⟩ else ⟨r.ups, r.names.dropLast⟩
  | .down name => ⟨r.ups, r.names ++ [name]⟩

def place (r : Route α) (dir : List α) : List α := dir.take (dir.length - r.ups) ++ r.names

theorem place_go (r : Route α) (dir : List α) (s : Step α) :
    (r.go s).place dir = walk (r.place dir) [s] := by
  cases s with
  | stay => rfl
  | up =>
    rw [walk, walk, go]
    split_ifs with hnil
    · rw [List.isEmpty_iff] at hnil
      rw [place, place, hnil, List.append_nil, List.append_nil, List.dropLast_eq_take,
        List.take_take, List.length_take]
      congr 1
      dsimp only
      omega
    · rw [place, place, List.dropLast_append_of_ne_nil fun h ↦ hnil (List.isEmpty_iff.mpr h)]
  | down name => exact (List.append_assoc _ _ _).symm

/-- Where a route leads stays in a directory below the one that it begins in if the names go down
there, as far as the way up has left it. -/
theorem prefix_place_iff (r : Route α) (dir more : List α) :
    dir ++ more <+: r.place dir ↔ (dir ++ more).drop (dir.length - r.ups) <+: r.names := by
  have hle : dir.length - r.ups ≤ dir.length := Nat.sub_le _ _
  have htake : dir.take (dir.length - r.ups) = (dir ++ more).take (dir.length - r.ups) :=
    (List.take_append_of_le_length hle).symm
  rw [place, htake]
  nth_rewrite 1 [← List.take_append_drop (dir.length - r.ups) (dir ++ more)]
  exact List.prefix_append_right_inj _

end Route

/-- The route of a path. -/
def route (path : List (Step α)) : Route α := path.foldl Route.go ⟨0, []⟩

theorem walk_append (dir : List α) (path path' : List (Step α)) :
    walk dir (path ++ path') = walk (walk dir path) path' := by
  induction path generalizing dir with
  | nil => rfl
  | cons s path ih => cases s <;> exact ih _

theorem walk_place (r : Route α) (dir : List α) (path : List (Step α)) :
    walk (r.place dir) path = (path.foldl Route.go r).place dir := by
  induction path generalizing r with
  | nil => rfl
  | cons s path ih =>
    rw [← List.singleton_append, walk_append, ← Route.place_go, ih]
    rfl

theorem walk_eq (dir : List α) (path : List (Step α)) : walk dir path = (route path).place dir := by
  have hstart : (⟨0, []⟩ : Route α).place dir = dir := by
    rw [Route.place, Nat.sub_zero, List.take_length, List.append_nil]
  rw [route, ← walk_place, hstart]

theorem prefix_walk_of_ups {path : List (Step α)} (h : (route path).ups = 0) (dir : List α) :
    dir <+: walk dir path := by
  rw [walk_eq, Route.place, h, Nat.sub_zero, List.take_length]
  exact List.prefix_append dir _

/-! ## Paths as texts -/

def step (s : Text) : Step Text :=
  if s = [] ∨ s = [46] then .stay else if s = [46, 46] then .up else .down s

/-- What stands between the slashes. -/
def steps (p : Text) : List (Step Text) := (p.splitOn 47).map step

/-- The place of a path, where `cwd` is the current directory. -/
def resolve (cwd : List Text) (p : Text) : List Text :=
  walk (if p.head? = some 47 then [] else cwd) (steps p)

theorem steps_slash (p q : Text) : steps (p ++ 47 :: q) = steps p ++ steps q := by
  rw [steps, List.splitOn_append_cons_self, List.map_append]
  rfl

theorem steps_of_notMem {p : Text} (h : 47 ∉ p) : steps p = [step p] := by
  rw [steps, List.splitOn_eq_singleton h]
  rfl

theorem resolve_absolute (cwd : List Text) {p : Text} (h : p.head? = some 47) :
    resolve cwd p = walk [] (steps p) := by
  rw [resolve, if_pos h]

theorem resolve_slash (cwd : List Text) (p q : Text) :
    resolve cwd (p ++ 47 :: q) = walk (resolve cwd (p ++ [47])) (steps q) := by
  have hhead : (p ++ 47 :: q).head? = (p ++ [47]).head? := by
    cases p <;> rfl
  have hstay : steps (p ++ [47]) = steps p ++ [.stay] := steps_slash p []
  rw [resolve, resolve, hhead, hstay, steps_slash, walk_append, walk_append]
  rfl

end Libobject.Paths
