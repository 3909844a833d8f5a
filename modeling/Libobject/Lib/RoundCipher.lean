import Mathlib.Data.List.Basic
import Mathlib.Logic.Function.Basic

/-!
# Ciphers of rounds with an inverse of the same shape

A round substitutes, mixes and adds a round key; the last round does not mix. Where mixing is
additive, the inverse can be run in the same order of steps: it adds the keys in reverse, with the
inverse of mixing applied to all but the two at the ends.
-/

namespace Libobject

structure RoundCipher (S : Type*) where
  add : S → S → S
  sub : S → S
  invSub : S → S
  mix : S → S
  invMix : S → S
  add_add : ∀ s k, add (add s k) k = s
  invMix_add : ∀ s k, invMix (add s k) = add (invMix s) (invMix k)
  invSub_sub : Function.LeftInverse invSub sub
  sub_invSub : Function.RightInverse invSub sub
  invMix_mix : Function.LeftInverse invMix mix
  mix_invMix : Function.RightInverse invMix mix

namespace RoundCipher

variable {S : Type*} (R : RoundCipher S)

def rounds (s : S) (ks : List S) : S := ks.foldl (fun s k ↦ R.add (R.mix (R.sub s)) k) s

def invRounds (s : S) (ks : List S) : S := ks.foldl (fun s k ↦ R.add (R.invMix (R.invSub s)) k) s

def encrypt (first : S) (ks : List S) (last s : S) : S :=
  R.add (R.sub (R.rounds (R.add s first) ks)) last

def decrypt (first : S) (ks : List S) (last s : S) : S :=
  R.add (R.invSub (R.invRounds (R.add s first) ks)) last

/-- The round keys of the inverse. -/
def invKeys (ks : List S) : List S := (ks.map R.invMix).reverse

theorem invRounds_snoc (s k : S) (ks : List S) :
    R.invRounds s (ks ++ [k]) = R.add (R.invMix (R.invSub (R.invRounds s ks))) k := by
  rw [invRounds, List.foldl_append]
  rfl

theorem invKeys_cons (k : S) (ks : List S) :
    R.invKeys (k :: ks) = R.invKeys ks ++ [R.invMix k] := by
  rw [invKeys, List.map_cons, List.reverse_cons]
  rfl

theorem invRounds_rounds (s : S) (ks : List S) :
    R.invRounds (R.sub (R.rounds s ks)) (R.invKeys ks) = R.sub s := by
  induction ks generalizing s with
  | nil => rfl
  | cons k ks ih =>
    have hrest := ih (R.add (R.mix (R.sub s)) k)
    have hstep : R.rounds s (k :: ks) = R.rounds (R.add (R.mix (R.sub s)) k) ks := rfl
    rw [hstep, invKeys_cons, invRounds_snoc, hrest, R.invSub_sub, ← R.invMix_add, R.add_add,
      R.invMix_mix]

theorem rounds_invRounds (s : S) (ks : List S) :
    R.rounds (R.invSub (R.invRounds s (R.invKeys ks))) ks = R.invSub s := by
  induction ks with
  | nil => rfl
  | cons k ks ih =>
    have hback : R.add (R.mix (R.sub (R.invSub (R.invRounds s (R.invKeys (k :: ks)))))) k =
        R.invSub (R.invRounds s (R.invKeys ks)) := by
      rw [R.sub_invSub, invKeys_cons, invRounds_snoc, ← R.invMix_add, R.mix_invMix, R.add_add]
    have hstep : R.rounds (R.invSub (R.invRounds s (R.invKeys (k :: ks)))) (k :: ks) =
        R.rounds (R.add (R.mix (R.sub (R.invSub (R.invRounds s (R.invKeys (k :: ks)))))) k) ks :=
      rfl
    rw [hstep, hback, ih]

theorem decrypt_encrypt (first last s : S) (ks : List S) :
    R.decrypt last (R.invKeys ks) first (R.encrypt first ks last s) = s := by
  rw [decrypt, encrypt, R.add_add, invRounds_rounds, R.invSub_sub, R.add_add]

theorem encrypt_decrypt (first last s : S) (ks : List S) :
    R.encrypt first ks last (R.decrypt last (R.invKeys ks) first s) = s := by
  rw [decrypt, encrypt, R.add_add, rounds_invRounds, R.sub_invSub, R.add_add]

end RoundCipher

end Libobject
