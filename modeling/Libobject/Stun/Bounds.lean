import Libobject.Stun.Receiver

/-!
# Binding replies as a reader

One attribute is converted in place, and an address that it carries is kept. What an attribute
reaches does not depend on what it says of its length.
-/

namespace Libobject.Stun

open Buffer Stride

/-! ## One attribute -/

theorem ntohs_some {mem mem' : List UInt8} {p n : ℕ} (h : ntohs mem p = some (n, mem')) :
    p + 2 ≤ mem.length ∧ n = beNat (field mem p 2) ∧ mem'.length = mem.length ∧
      ∀ q, q < p ∨ p + 2 ≤ q → mem'[q]? = mem[q]? := by
  have hp : p + 2 ≤ mem.length := by
    rw [← get_isSome]
    by_contra hnone
    rw [Option.not_isSome_iff_eq_none] at hnone
    simp only [ntohs, hnone, Option.bind_eq_bind, Option.bind_none] at h
    cases h
  obtain ⟨mem₁, hntohs, hlen, hsame⟩ := ntohs_inside hp
  obtain ⟨rfl, rfl⟩ := Prod.mk.inj (Option.some.inj (hntohs.symm.trans h))
  exact ⟨hp, rfl, hlen, hsame⟩

theorem ntohs_drop {mem mem' : List UInt8} {p n : ℕ} (h : ntohs mem p = some (n, mem')) :
    field mem' p 2 = (field mem p 2).reverse ∧ mem'.drop (p + 2) = mem.drop (p + 2) := by
  simp only [ntohs, Option.bind_eq_bind, Option.bind_eq_some_iff] at h
  obtain ⟨bs, hget, mem₁, hput, heq⟩ := h
  obtain ⟨-, rfl⟩ := Prod.mk.inj (Option.some.inj heq)
  have hp := get_isSome.mp (Option.isSome_of_eq_some hget)
  obtain rfl : field mem p 2 = bs := Option.some.inj ((if_pos hp).symm.trans hget)
  have hlen : (field mem p 2).reverse.length = 2 := by
    rw [List.length_reverse, length_get hget]
  have hdrop := drop_put hput
  rw [hlen] at hdrop
  constructor
  · rw [field, hdrop, List.take_left' hlen]
  · rw [← List.drop_drop, hdrop, List.drop_left' hlen]

theorem ntohs_append {mem mem' : List UInt8} {p n : ℕ} (h : ntohs mem p = some (n, mem'))
    (post : List UInt8) : ntohs (mem ++ post) p = some (n, mem' ++ post) := by
  simp only [ntohs, Option.bind_eq_bind, Option.bind_eq_some_iff] at h ⊢
  obtain ⟨bs, hget, mem₁, hput, heq⟩ := h
  obtain ⟨rfl, rfl⟩ := Prod.mk.inj (Option.some.inj heq)
  exact ⟨bs, get_append_left hget post, mem₁ ++ post, put_append_left hput post, rfl⟩

theorem xor_decode_some {mem mem' : List UInt8} {p : ℕ}
    (h : xor_decode_mapped_address mem p = some mem') :
    mem'.length = mem.length ∧ mem'[p + 1]? = mem[p + 1]? ∧
      p + (if mem[p + 1]? = some 1 then 8 else 20) ≤ mem.length := by
  simp only [xor_decode_mapped_address, Option.bind_eq_bind, Option.bind_eq_some_iff] at h
  obtain ⟨cookie, -, family, hfamily, port, -, mem₁, hput, ip, hip, hput'⟩ := h
  have hlen := length_put hput
  have hip' := get_isSome.mp (Option.isSome_of_eq_some hip)
  refine ⟨(length_put hput').trans hlen, ?_, ?_⟩
  · rw [getElem?_put hput' (Or.inl (by omega)), getElem?_put hput (Or.inl (by omega))]
  · rw [hfamily]
    simp only [Option.some.injEq]
    split at hip' <;> split <;> omega

theorem xor_decode_append {mem mem' : List UInt8} {p : ℕ}
    (h : xor_decode_mapped_address mem p = some mem') (post : List UInt8) :
    xor_decode_mapped_address (mem ++ post) p = some (mem' ++ post) := by
  simp only [xor_decode_mapped_address, Option.bind_eq_bind, Option.bind_eq_some_iff] at h ⊢
  obtain ⟨cookie, hcookie, family, hfamily, port, hport, mem₁, hput, ip, hip, hput'⟩ := h
  exact ⟨cookie, get_append_left hcookie post, family, getElem?_append hfamily post, port,
    get_append_left hport post, mem₁ ++ post, put_append_left hput post, ip,
    get_append_left hip post, put_append_left hput' post⟩

theorem raw_attrib_eq_some {mem mem' : List UInt8} {p type total : ℕ} :
    raw_attrib mem p = some (type, total, mem') ↔
      ∃ mem₁ n mem₂, ntohs mem p = some (type, mem₁) ∧ ntohs mem₁ (p + 2) = some (n, mem₂) ∧
        total = 4 + (n + 3) / 4 * 4 ∧
          (if type = STUN_ATR_TYPE_XOR_MAPPED_ADDR then xor_decode_mapped_address mem₂ (p + 4)
            else some mem₂) = some mem' := by
  constructor
  · intro h
    simp only [raw_attrib, Option.bind_eq_bind, Option.bind_eq_some_iff] at h
    obtain ⟨⟨type', mem₁⟩, htype, ⟨n, mem₂⟩, hlen, h⟩ := h
    dsimp only at h
    split at h
    · next hxor =>
        obtain ⟨mem₃, hdecode, heq⟩ := Option.bind_eq_some_iff.mp h
        obtain ⟨rfl, rfl, rfl⟩ : type' = type ∧ 4 + (n + 3) / 4 * 4 = total ∧ mem₃ = mem' := by
          simpa using heq
        exact ⟨mem₁, n, mem₂, htype, hlen, rfl, by rw [if_pos hxor, hdecode]⟩
    · next hxor =>
        obtain ⟨rfl, rfl, rfl⟩ : type' = type ∧ 4 + (n + 3) / 4 * 4 = total ∧ mem₂ = mem' := by
          simpa using h
        exact ⟨mem₁, n, mem₂, htype, hlen, rfl, by rw [if_neg hxor]⟩
  · rintro ⟨mem₁, n, mem₂, htype, hlen, rfl, hdecode⟩
    simp only [raw_attrib, htype, hlen, Option.bind_eq_bind, Option.bind_some]
    split at hdecode
    · next hxor =>
        rw [if_pos hxor, hdecode]
        rfl
    · next hxor =>
        obtain rfl := Option.some.inj hdecode
        rw [if_neg hxor]
        rfl

theorem raw_attrib_some {mem mem' : List UInt8} {p type total : ℕ}
    (h : raw_attrib mem p = some (type, total, mem')) :
    type = beNat (field mem p 2) ∧ 0 < total ∧ mem'.length = mem.length ∧
      mem'[p + 5]? = mem[p + 5]? ∧ p + 4 ≤ mem.length ∧
        (type = STUN_ATR_TYPE_XOR_MAPPED_ADDR →
          p + (if mem[p + 5]? = some 1 then 12 else 24) ≤ mem.length) := by
  obtain ⟨mem₁, n, mem₂, htype, hlen, rfl, hdecode⟩ := raw_attrib_eq_some.mp h
  obtain ⟨-, rfl, hlen₁, hsame₁⟩ := ntohs_some htype
  obtain ⟨hp, -, hlen₂, hsame₂⟩ := ntohs_some hlen
  have hsame : mem₂[p + 5]? = mem[p + 5]? := by
    rw [hsame₂ _ (Or.inr (by omega)), hsame₁ _ (Or.inr (by omega))]
  refine ⟨rfl, by omega, ?_⟩
  split at hdecode
  · obtain ⟨hlen₃, hfamily, hreach⟩ := xor_decode_some hdecode
    have hfamily' : mem'[p + 5]? = mem[p + 5]? := hfamily.trans hsame
    have hreach' : p + 4 + (if mem[p + 5]? = some 1 then 8 else 20) ≤ mem₂.length := by
      rwa [← hsame]
    refine ⟨by omega, hfamily', by omega, fun _ ↦ ?_⟩
    split at hreach'
    · next hone => rw [if_pos hone]; omega
    · next hother => rw [if_neg hother]; omega
  · next hxor =>
      obtain rfl := Option.some.inj hdecode
      exact ⟨by omega, hsame, by omega, fun h ↦ (hxor h).elim⟩

theorem raw_attrib_append {mem mem' : List UInt8} {p type total : ℕ}
    (h : raw_attrib mem p = some (type, total, mem')) (post : List UInt8) :
    raw_attrib (mem ++ post) p = some (type, total, mem' ++ post) := by
  obtain ⟨mem₁, n, mem₂, htype, hlen, rfl, hdecode⟩ := raw_attrib_eq_some.mp h
  refine raw_attrib_eq_some.mpr ⟨mem₁ ++ post, n, mem₂ ++ post, ntohs_append htype post,
    ntohs_append hlen post, rfl, ?_⟩
  split at hdecode
  · next hxor =>
      rw [if_pos hxor]
      exact xor_decode_append hdecode post
  · next hxor => rw [if_neg hxor, Option.some.inj hdecode]

theorem parse_some {mem : List UInt8} {p : ℕ} {attr : Option MappedAddress}
    (h : parse_attrib_address mem p = some attr) :
    (attr = none ↔ mem[p + 1]? ≠ some 1 ∧ mem[p + 1]? ≠ some 2) ∧ p + 2 ≤ mem.length ∧
      (mem[p + 1]? = some 1 → p + 8 ≤ mem.length) ∧
        (mem[p + 1]? = some 2 → p + 12 ≤ mem.length) := by
  simp only [parse_attrib_address, Option.bind_eq_bind, Option.bind_eq_some_iff] at h
  obtain ⟨family, hfamily, h⟩ := h
  obtain ⟨hlt, -⟩ := List.getElem?_eq_some_iff.mp hfamily
  simp only [hfamily, ne_eq, Option.some.injEq]
  split at h
  · next hunknown =>
      obtain rfl := Option.some.inj h
      exact ⟨iff_of_true rfl hunknown, by omega, fun h ↦ (hunknown.1 h).elim,
        fun h ↦ (hunknown.2 h).elim⟩
  · next hknown =>
      simp only [Option.bind_eq_some_iff] at h
      obtain ⟨port, -, ip, hip, heq⟩ := h
      have hip' := get_isSome.mp (Option.isSome_of_eq_some hip)
      obtain rfl := Option.some.inj heq
      refine ⟨iff_of_false (Option.some_ne_none _) hknown, by omega, ?_, ?_⟩
      · rintro rfl
        rw [if_pos rfl] at hip'
        omega
      · rintro rfl
        rw [if_neg (by decide)] at hip'
        omega

theorem parse_append {mem : List UInt8} {p : ℕ} {attr : Option MappedAddress}
    (h : parse_attrib_address mem p = some attr) (post : List UInt8) :
    parse_attrib_address (mem ++ post) p = some attr := by
  simp only [parse_attrib_address, Option.bind_eq_bind, Option.bind_eq_some_iff] at h ⊢
  obtain ⟨family, hfamily, h⟩ := h
  refine ⟨family, getElem?_append hfamily post, ?_⟩
  split at h
  · next hunknown =>
      rw [if_pos hunknown]
      exact h
  · next hknown =>
      rw [if_neg hknown]
      simp only [Option.bind_eq_some_iff] at h ⊢
      obtain ⟨port, hport, ip, hip, heq⟩ := h
      exact ⟨port, get_append_left hport post, ip, get_append_left hip post, heq⟩

/-! ## One round of the loop -/

def visit (mem : List UInt8) (i : ℕ) : Option (Visit UInt8 (ℕ × ℕ × MappedAddress)) := do
  let (type, total, mem') ← raw_attrib mem (20 + i)
  match find_policy type with
  | none => return ⟨total, mem', some none⟩
  | some policy =>
    let attr ← policy mem' (20 + i + 4)
    return ⟨total, mem', attr.map fun attr ↦ some (lenAt mem i, type, attr)⟩

def IsAddress (mem : List UInt8) (i : ℕ) : Prop := (find_policy (typeAt mem i)).isSome

instance (mem : List UInt8) (i : ℕ) : Decidable (IsAddress mem i) :=
  inferInstanceAs (Decidable (_ = true))

/-- The accesses to the attribute stay inside. -/
def Fits (mem : List UInt8) (i : ℕ) : Prop := 20 + i + reach mem (20 + i) ≤ mem.length

instance (mem : List UInt8) (i : ℕ) : Decidable (Fits mem i) := Nat.decLe _ _

/-- An address of a family that is not known. -/
def Refuses (mem : List UInt8) (i : ℕ) : Prop :=
  IsAddress mem i ∧ mem[20 + i + 5]? ≠ some 1 ∧ mem[20 + i + 5]? ≠ some 2

instance (mem : List UInt8) (i : ℕ) : Decidable (Refuses mem i) := instDecidableAnd

section Visit

variable {mem : List UInt8} {i : ℕ} {v : Visit UInt8 (ℕ × ℕ × MappedAddress)}

theorem visit_other {type total : ℕ} {mem' : List UInt8}
    (hraw : raw_attrib mem (20 + i) = some (type, total, mem')) (hfind : find_policy type = none) :
    visit mem i = some ⟨total, mem', some none⟩ := by
  simp only [visit, hraw, Option.bind_eq_bind, Option.bind_some, hfind]
  rfl

theorem visit_address {type total : ℕ} {mem' : List UInt8}
    (hraw : raw_attrib mem (20 + i) = some (type, total, mem'))
    {policy : List UInt8 → ℕ → Option (Option MappedAddress)}
    (hfind : find_policy type = some policy) :
    visit mem i = (parse_attrib_address mem' (20 + i + 4)).map fun attr ↦
      ⟨total, mem', attr.map fun attr ↦ some (lenAt mem i, type, attr)⟩ := by
  obtain ⟨-, rfl⟩ := find_policy_eq hfind
  simp only [visit, hraw, Option.bind_eq_bind, Option.bind_some, hfind]
  cases parse_attrib_address mem' (20 + i + 4) <;> rfl

theorem visit_some (h : visit mem i = some v) :
    raw_attrib mem (20 + i) = some (typeAt mem i, v.stride, v.mem) ∧
      (find_policy (typeAt mem i) = none ∧ v.kept = some none ∨
        IsAddress mem i ∧ ∃ attr, parse_attrib_address v.mem (20 + i + 4) = some attr ∧
          v.kept = attr.map fun attr ↦ some (lenAt mem i, typeAt mem i, attr)) := by
  cases hraw : raw_attrib mem (20 + i) with
  | none =>
    simp only [visit, hraw, Option.bind_eq_bind, Option.bind_none] at h
    cases h
  | some r =>
    obtain ⟨type, total, mem'⟩ := r
    obtain rfl : type = typeAt mem i := (raw_attrib_some hraw).1
    cases hfind : find_policy (typeAt mem i) with
    | none =>
      rw [visit_other hraw hfind] at h
      obtain rfl := Option.some.inj h
      exact ⟨rfl, Or.inl ⟨rfl, rfl⟩⟩
    | some policy =>
      rw [visit_address hraw hfind] at h
      obtain ⟨attr, hattr, rfl⟩ := Option.map_eq_some_iff.mp h
      exact ⟨rfl, Or.inr ⟨Option.isSome_of_eq_some hfind, attr, hattr, rfl⟩⟩

theorem isAddress_iff : IsAddress mem i ↔ typeAt mem i = STUN_ATR_TYPE_XOR_MAPPED_ADDR ∨
    typeAt mem i = STUN_ATR_TYPE_MAPPED_ADDR ∨ typeAt mem i = STUN_ATR_TYPE_CHANGED_ADDRESS := by
  constructor
  · intro h
    obtain ⟨policy, hfind⟩ := Option.isSome_iff_exists.mp h
    obtain ⟨⟨k, hk⟩, -⟩ := find_policy_eq hfind
    cases k with
    | mapped => exact Or.inr (Or.inl hk)
    | xorMapped => exact Or.inl hk
    | changed => exact Or.inr (Or.inr hk)
  · rintro (h | h | h) <;> rw [IsAddress, h] <;> rfl

theorem visit_isSome_iff : (visit mem i).isSome ↔ Fits mem i := by
  constructor
  · intro h
    obtain ⟨v, hv⟩ := Option.isSome_iff_exists.mp h
    obtain ⟨hraw, hkept⟩ := visit_some hv
    obtain ⟨-, -, hlen, hfamily, hp, hxor⟩ := raw_attrib_some hraw
    have hreach : reach mem (20 + i) = if typeAt mem i = STUN_ATR_TYPE_XOR_MAPPED_ADDR then
        if mem[20 + i + 5]? = some 1 then 12 else 24
      else if typeAt mem i = STUN_ATR_TYPE_MAPPED_ADDR ∨
          typeAt mem i = STUN_ATR_TYPE_CHANGED_ADDRESS then
        if mem[20 + i + 5]? = some 1 then 12 else if mem[20 + i + 5]? = some 2 then 16 else 6
      else 4 := rfl
    rw [Fits, hreach]
    split
    · next htype => exact hxor htype
    · split
      · next hother htype =>
          have haddress := isAddress_iff.mpr (Or.inr htype)
          rcases hkept with ⟨hnone, -⟩ | ⟨-, attr, hattr, -⟩
          · rw [IsAddress, hnone] at haddress
            cases haddress
          · obtain ⟨-, h6, h12, h16⟩ := parse_some hattr
            have hfamily' : v.mem[20 + i + 4 + 1]? = mem[20 + i + 5]? := hfamily
            rw [hfamily'] at h12 h16
            split_ifs with hone htwo
            · have := h12 hone
              omega
            · have := h16 htwo
              omega
            · omega
      · exact hp
  · intro h
    obtain ⟨type, total, mem', hraw, -, hpolicy⟩ := raw_attrib_reach (by omega) h
    cases hfind : find_policy type with
    | none =>
      rw [visit_other hraw hfind]
      rfl
    | some policy =>
      obtain ⟨attr, hattr⟩ := hpolicy policy hfind
      obtain ⟨-, rfl⟩ := find_policy_eq hfind
      rw [visit_address hraw hfind, hattr]
      rfl

theorem visit_refuses_iff (h : visit mem i = some v) : v.kept = none ↔ Refuses mem i := by
  obtain ⟨hraw, hkept⟩ := visit_some h
  have hfamily := (raw_attrib_some hraw).2.2.2.1
  rcases hkept with ⟨hfind, hkept⟩ | ⟨haddress, attr, hattr, hkept⟩
  · have haddress : ¬ IsAddress mem i := by
      rw [IsAddress, hfind]
      decide
    rw [hkept]
    exact iff_of_false (Option.some_ne_none _) fun h ↦ haddress h.1
  · rw [hkept, Option.map_eq_none_iff, (parse_some hattr).1, Refuses, and_iff_right haddress]
    rw [← hfamily]

theorem visit_keeps_iff (h : visit mem i = some v) (hrefuses : ¬ Refuses mem i) :
    IsAddress mem i ↔ ∃ c, v.kept = some (some c) := by
  rw [← visit_refuses_iff h] at hrefuses
  obtain ⟨-, hkept⟩ := visit_some h
  rcases hkept with ⟨hfind, hkept⟩ | ⟨haddress, attr, -, hkept⟩
  · rw [IsAddress, hfind, hkept]
    simp
  · cases attr with
    | none => exact (hrefuses hkept).elim
    | some attr => exact iff_of_true haddress ⟨_, hkept⟩

theorem visit_kept_len {c : ℕ × ℕ × MappedAddress} (h : visit mem i = some v)
    (hc : v.kept = some (some c)) : c.1 = lenAt mem i := by
  obtain ⟨-, hkept⟩ := visit_some h
  rcases hkept with ⟨-, hkept⟩ | ⟨-, attr, -, hkept⟩
  · rw [hkept] at hc
    cases hc
  · rw [hkept] at hc
    obtain ⟨attr', -, hattr'⟩ := Option.map_eq_some_iff.mp hc
    obtain rfl := Option.some.inj hattr'
    rfl

theorem local_visit : Stride.Local visit where
  stride_pos h := (raw_attrib_some (visit_some h).1).2.1
  length_mem h := (raw_attrib_some (visit_some h).1).2.2.1
  append {mem i v} h post := by
    obtain ⟨hraw, hkept⟩ := visit_some h
    have hp := (raw_attrib_some hraw).2.2.2.2.1
    have hraw' := raw_attrib_append hraw post
    obtain ⟨stride, mem', kept⟩ := v
    rcases hkept with ⟨hfind, rfl⟩ | ⟨haddress, attr, hattr, rfl⟩
    · exact visit_other hraw' hfind
    · obtain ⟨policy, hfind⟩ := Option.isSome_iff_exists.mp haddress
      have hlen : lenAt (mem ++ post) i = lenAt mem i := by
        rw [lenAt, field_append_left (by omega), lenAt]
      rw [visit_address hraw' hfind, parse_append hattr post, Option.map_some, hlen]

end Visit

/-! ## The reader -/

section Reader

variable (rb : Rebalance (ℕ × MappedAddress))

def store (map : Attribs) (x : ℕ × ℕ × ℕ × MappedAddress) : Attribs := map.add rb x.2.2.1 x.2.2.2

theorem read_attribs_walk (msglen fuel i : ℕ) (mem : List UInt8) (map : Attribs) :
    read_attribs rb msglen fuel i mem map = (walk visit msglen fuel i mem).map
      (fun r ↦ (if r.1 then 1 else -1, r.2.1, r.2.2.foldl (store rb) map)) := by
  induction fuel generalizing i mem map with
  | zero => rfl
  | succ fuel ih =>
    rcases Nat.lt_or_ge i msglen with hlt | hle
    · rw [read_attribs, if_neg (Nat.not_le_of_lt hlt)]
      cases hraw : raw_attrib mem (20 + i) with
      | none =>
        have hvisit : visit mem i = none := by
          simp only [visit, hraw, Option.bind_eq_bind, Option.bind_none]
        rw [walk_none fuel hlt hvisit]
        rfl
      | some r =>
        obtain ⟨type, total, mem'⟩ := r
        simp only [Option.bind_eq_bind, Option.bind_some]
        cases hfind : find_policy type with
        | none =>
          rw [walk_kept fuel hlt (visit_other hraw hfind) rfl]
          dsimp only
          rw [ih, Option.map_map]
          rfl
        | some policy =>
          have hvisit := visit_address hraw hfind
          obtain ⟨-, rfl⟩ := find_policy_eq hfind
          dsimp only
          cases hattr : parse_attrib_address mem' (20 + i + 4) with
          | none =>
            rw [hattr, Option.map_none] at hvisit
            rw [walk_none fuel hlt hvisit]
            rfl
          | some attr =>
            rw [hattr, Option.map_some] at hvisit
            rw [Option.bind_some]
            cases attr with
            | none =>
              rw [walk_refused fuel hlt hvisit rfl]
              rfl
            | some attr =>
              rw [walk_kept fuel hlt hvisit rfl]
              dsimp only
              rw [ih, Option.map_map]
              rfl
    · rw [read_attribs, if_pos hle, walk_of_le hle]
      rfl

def reader : Reader Attribs (ℕ × MappedAddress) where
  read_attribs msglen fuel := read_attribs rb msglen fuel 0
  visit := visit
  store := store rb
  fits := Fits
  refuses := Refuses
  keeps := IsAddress
  local_visit := local_visit
  read_attribs_eq msglen fuel mem map := read_attribs_walk rb msglen fuel 0 mem map
  fits_iff _ _ := visit_isSome_iff
  refuses_iff := visit_refuses_iff
  keeps_iff := visit_keeps_iff
  kept_len := visit_kept_len

instance (mem : List UInt8) (i : ℕ) : Decidable ((reader rb).fits mem i) :=
  inferInstanceAs (Decidable (Fits mem i))

instance (mem : List UInt8) (i : ℕ) : Decidable ((reader rb).refuses mem i) :=
  inferInstanceAs (Decidable (Refuses mem i))

instance (mem : List UInt8) (i : ℕ) : Decidable ((reader rb).keeps mem i) :=
  inferInstanceAs (Decidable (IsAddress mem i))

/-- `read` on a response of its own type. -/
def Response.readAs (resp : Receiver Attribs) : Option ((ℤ × Option ℕ) × Receiver Attribs) :=
  (Response.read rb ⟨resp.header, resp.attribs, resp.buffer⟩).map
    (fun r ↦ (r.1, ⟨r.2.header, r.2.attribs, r.2.buffer⟩))

theorem Response.readAs_eq : Response.readAs rb = Receiver.read (reader rb).read_attribs := by
  funext resp
  rw [Response.readAs, Response.read, Receiver.read]
  dsimp only
  split
  · rfl
  · rcases hbs : resp.buffer.read resp.buffer.getLen with ⟨bs, buffer⟩
    dsimp only
    cases put resp.header 0 bs with
    | none => rfl
    | some mem =>
      simp only [Option.bind_eq_bind, Option.bind_some]
      cases ntohs mem 0 with
      | none => rfl
      | some r =>
        simp only [Option.bind_some]
        cases ntohs r.2 2 with
        | none => rfl
        | some r' =>
          simp only [Option.bind_some]
          split
          · rfl
          · change Option.map _ (Option.bind (read_attribs rb r'.1 r'.1 0 r'.2 resp.attribs) _) =
              Option.bind (read_attribs rb r'.1 r'.1 0 r'.2 resp.attribs) _
            cases read_attribs rb r'.1 r'.1 0 r'.2 resp.attribs <;> rfl

end Reader

end Libobject.Stun
