import Libobject.Archive.SevenZipSafe

/-!
# Every header is parsed safely up to what is not compared with the end

Each parser keeps the guards: by the time it reads a byte it has compared the cursor with the end,
and its loops take the cursor on. The operations without a guard are all that is left to be good.
-/

namespace Libobject.SevenZip

open Program (Keeps keeps_pure keeps_fail keeps_require keeps_ite require)

variable {α β : Type}

/-- The parser keeps the guards, and what it returns has `Q`. -/
abbrev Safe (m : Parse α) (Q : α → Prop) : Prop := Keeps Op.Guarded Op.Gives m Q

/-- The parser keeps the guards and does not leave the cursor in front of `p`. -/
abbrev Forward (p : ℕ) (m : Parse (α × ℕ)) : Prop := Safe m fun r ↦ p ≤ r.2

section Rules

variable {p q : ℕ} {Q : β → Prop}

theorem Forward.pure {a : α} (h : p ≤ q) : Forward p (pure (a, q)) := h

theorem Forward.trans {m : Parse (α × ℕ)} (h : Forward q m) (hpq : p ≤ q) : Forward p m :=
  Keeps.mono h fun _ ↦ hpq.trans

theorem Forward.bind {m : Parse (α × ℕ)} {f : α × ℕ → Parse (β × ℕ)} (h : Forward p m)
    (hf : ∀ a q, p ≤ q → Forward q (f (a, q))) : Forward p (m >>= f) :=
  Keeps.bind h fun r hr ↦ (hf r.1 r.2 hr).trans hr

theorem safe_perform {o : Op} {f : o.Res → Parse β} (h : o.Guarded) (hf : ∀ r, Safe (f r) Q) :
    Safe (perform o >>= f) Q := ⟨h, fun r _ ↦ hf r⟩

theorem safe_require {c : Prop} [Decidable c] {f : Unit → Parse β} (hf : c → Safe (f ()) Q) :
    Safe (require c >>= f) Q :=
  Keeps.bind (keeps_require id) fun _ hc ↦ hf hc

end Rules

section Primitives

variable (w : Window)

theorem forward_read_number (p : ℕ) : Forward p (read_number w p) := ⟨trivial, fun _ hr ↦ hr⟩

theorem forward_read_count (p : ℕ) : Forward p (read_count w p) :=
  (forward_read_number w p).bind fun _ _ _ ↦ Forward.pure le_rfl

theorem forward_read_numbers (n p : ℕ) : Forward p (read_numbers w n p) := by
  induction n generalizing p with
  | zero => exact Forward.pure le_rfl
  | succ n ih =>
    apply (forward_read_number w p).bind
    intro v q _
    apply (ih q).bind
    intro vs q' _
    exact Forward.pure le_rfl

theorem sized_vectorBytes (n p : ℕ) :
    Safe (vectorBytes w n p) fun r ↦ r.1.length = n ∧ p ≤ r.2 := by
  induction n generalizing p with
  | zero => exact ⟨rfl, le_rfl⟩
  | succ n ih =>
    apply safe_require
    intro hp
    apply safe_perform
    · exact hp
    intro b
    apply (ih (p + 1)).bind
    rintro ⟨bs, q⟩ ⟨hlen, hq⟩
    exact ⟨congrArg (· + 1) hlen, (Nat.le_succ p).trans hq⟩

theorem safe_read_le32 {w : Window} {p : ℕ} (h : p + 4 ≤ w.stop) :
    Safe (read_le32 w p) fun _ ↦ True :=
  ⟨h, fun _ _ ↦ trivial⟩

theorem sized_definedCrcs (ds : List Bool) (p : ℕ) :
    Safe (definedCrcs w ds p) fun r ↦ r.1.length = ds.length ∧ p ≤ r.2 := by
  induction ds generalizing p with
  | nil => exact ⟨rfl, le_rfl⟩
  | cons d ds ih =>
    cases d with
    | false =>
      apply (ih p).bind
      rintro ⟨crcs, q⟩ ⟨hlen, hq⟩
      exact ⟨congrArg (· + 1) hlen, hq⟩
    | true =>
      apply safe_require
      intro hp
      apply (safe_read_le32 hp).bind
      intro crc _
      apply (ih (p + 4)).bind
      rintro ⟨crcs, q⟩ ⟨hlen, hq⟩
      exact ⟨congrArg (· + 1) hlen, (Nat.le_add_right p 4).trans hq⟩

theorem sized_read_crc_section (p count : ℕ) :
    Safe (read_crc_section w p count) fun r ↦ r.1.length = count ∧ p ≤ r.2 := by
  apply Keeps.bind (forward_read_number w p)
  rintro ⟨all_defined, q⟩ hq
  apply keeps_ite
  · intro _
    apply (sized_definedCrcs w (List.replicate count true) q).mono
    rintro r ⟨hlen, hr⟩
    exact ⟨hlen.trans List.length_replicate, hq.trans hr⟩
  · intro _
    apply (sized_vectorBytes w (bitBytes count) q).bind
    rintro ⟨vec, q'⟩ ⟨hvec, hq'⟩
    refine ⟨hvec, fun ds hds ↦ ?_⟩
    apply (sized_definedCrcs w ds q').mono
    rintro r ⟨hlen, hr⟩
    exact ⟨hlen.trans hds, hq.trans (hq'.trans hr)⟩

theorem forward_read_crc_section (p count : ℕ) : Forward p (read_crc_section w p count) :=
  (sized_read_crc_section w p count).mono fun _ h ↦ h.2

theorem forward_recordsFrom {σ : Type} {record : UInt8 → σ → ℕ → Parse (σ × ℕ)}
    (h : ∀ type s p, Forward p (record type s p)) {n : ℕ} {p : ℕ} (s : σ) (hn : w.stop ≤ p + n) :
    Forward p (recordsFrom w record n s p) := by
  induction n generalizing s p with
  | zero =>
    rw [recordsFrom, if_neg (Nat.not_lt.2 (by omega))]
    exact Forward.pure le_rfl
  | succ n ih =>
    rw [recordsFrom]
    apply keeps_ite
    · exact fun _ ↦ Forward.pure le_rfl
    · intro hp
      apply safe_perform
      · exact Nat.lt_of_not_le hp
      · intro type
        apply keeps_ite
        · exact fun _ ↦ Forward.pure (Nat.le_succ p)
        · intro _
          apply Forward.trans _ (Nat.le_succ p)
          apply (h type s (p + 1)).bind
          intro s' q hq
          exact ih s' (by omega)

variable {w} in
theorem forward_records {σ : Type} {record : UInt8 → σ → ℕ → Parse (σ × ℕ)}
    (h : ∀ type s p, Forward p (record type s p)) (s : σ) (p : ℕ) :
    Forward p (records w record s p) :=
  forward_recordsFrom w h s (by omega)

end Primitives

section Streams

variable (w : Window)

theorem forward_parse_pack_info (h : Header) (p : ℕ) : Forward p (parse_pack_info w h p) := by
  apply (forward_read_number w p).bind
  intro pos q _
  apply (forward_read_count w q).bind
  intro n q' _
  apply safe_require
  intro _
  apply forward_records
  intro type h' p'
  apply keeps_ite
  · intro _
    apply (forward_read_numbers w n p').bind
    intro sizes q'' _
    exact Forward.pure le_rfl
  · intro _
    apply keeps_ite
    · intro _
      apply (forward_read_crc_section w p' n).bind
      intro crcs q'' _
      exact Forward.pure le_rfl
    · exact fun _ ↦ keeps_fail

theorem forward_coderStreams (flags : UInt8) (p : ℕ) :
    Safe (coderStreams w flags p) fun r ↦ p ≤ r.2.2 := by
  apply keeps_ite
  · intro _
    apply Keeps.bind (forward_read_number w p)
    rintro ⟨ins, q⟩ hq
    apply Keeps.bind (forward_read_number w q)
    rintro ⟨outs, q'⟩ hq'
    exact hq.trans hq'
  · exact fun _ ↦ le_rfl

theorem forward_coderProperties (flags : UInt8) (p : ℕ) :
    Forward p (coderProperties w flags p) := by
  apply keeps_ite
  · intro _
    apply (forward_read_count w p).bind
    intro n q _
    apply safe_require
    intro hn
    apply safe_perform
    · exact hn
    · exact fun bs ↦ Forward.pure (Nat.le_add_right q n)
  · exact fun _ ↦ Forward.pure le_rfl

theorem forward_parse_coder (p : ℕ) : Forward p (parse_coder w p) := by
  apply safe_perform
  · exact trivial
  intro flags
  apply safe_require
  rintro ⟨-, -, hstop⟩
  apply safe_perform
  · exact hstop
  intro method_id
  apply Keeps.bind (forward_coderStreams w flags _)
  rintro ⟨ins, outs, q⟩ hq
  have hpq : p ≤ q := by
    have hq' : p + 1 + (flags &&& 0x0F).toNat ≤ q := hq
    omega
  apply Forward.trans _ hpq
  apply (forward_coderProperties w flags q).bind
  intro properties q' _
  exact Forward.pure le_rfl

theorem forward_parse_coders (n p : ℕ) : Forward p (parse_coders w n p) := by
  induction n generalizing p with
  | zero => exact Forward.pure le_rfl
  | succ n ih =>
    apply (forward_parse_coder w p).bind
    intro coder q _
    apply (ih q).bind
    intro coders q' _
    exact Forward.pure le_rfl

theorem forward_read_pairs (n p : ℕ) : Forward p (read_pairs w n p) := by
  induction n generalizing p with
  | zero => exact Forward.pure le_rfl
  | succ n ih =>
    apply (forward_read_number w p).bind
    intro a q _
    apply (forward_read_number w q).bind
    intro b q' _
    apply (ih q').bind
    intro pairs q'' _
    exact Forward.pure le_rfl

theorem forward_parse_folder (p : ℕ) : Forward p (parse_folder w p) := by
  apply (forward_read_count w p).bind
  intro num q _
  apply (forward_parse_coders w num q).bind
  intro coders q _
  apply keeps_ite
  · exact fun _ ↦ Forward.pure le_rfl
  · intro _
    apply (forward_read_count w q).bind
    intro num q _
    apply (forward_read_pairs w num q).bind
    intro bind_pairs q _
    apply (forward_read_count w q).bind
    intro num q _
    apply (forward_read_numbers w num q).bind
    intro indices q _
    exact Forward.pure le_rfl

theorem forward_parse_folders (n p : ℕ) : Forward p (parse_folders w n p) := by
  induction n generalizing p with
  | zero => exact Forward.pure le_rfl
  | succ n ih =>
    apply (forward_parse_folder w p).bind
    intro folder q _
    apply (ih q).bind
    intro folders q' _
    exact Forward.pure le_rfl

theorem forward_read_unpack_sizes (folders : List Folder) (p : ℕ) :
    Forward p (read_unpack_sizes w folders p) := by
  induction folders generalizing p with
  | nil => exact Forward.pure le_rfl
  | cons folder folders ih =>
    apply (forward_read_numbers w _ p).bind
    intro sizes q _
    apply (ih q).bind
    intro folders' q' _
    exact Forward.pure le_rfl

theorem forward_parse_unpack_info (h : Header) (p : ℕ) : Forward p (parse_unpack_info w h p) := by
  apply safe_require
  intro hp
  apply safe_perform
  · exact hp
  · intro type
    apply safe_require
    intro _
    apply Forward.trans _ (Nat.le_succ p)
    apply (forward_read_count w (p + 1)).bind
    intro num_folders q _
    apply (forward_read_count w q).bind
    intro ext q _
    apply safe_require
    intro _
    apply (forward_parse_folders w num_folders q).bind
    intro folders q _
    apply forward_records
    intro type h' p'
    apply keeps_ite
    · intro _
      apply (forward_read_unpack_sizes w h'.folders p').bind
      intro folders' q _
      exact Forward.pure le_rfl
    · intro _
      apply keeps_ite
      · intro _
        apply (forward_read_crc_section w p' num_folders).bind
        intro crcs q _
        exact Forward.pure le_rfl
      · exact fun _ ↦ keeps_fail

theorem forward_read_num_substreams (folders : List Folder) (p : ℕ) :
    Forward p (read_num_substreams w folders p) := by
  induction folders generalizing p with
  | nil => exact Forward.pure le_rfl
  | cons folder folders ih =>
    apply (forward_read_number w p).bind
    intro v q _
    apply (ih q).bind
    intro folders' q' _
    exact Forward.pure le_rfl

theorem forward_read_substream_sizes (folders : List Folder) (p : ℕ) :
    Forward p (read_substream_sizes w folders p) := by
  induction folders generalizing p with
  | nil => exact Forward.pure le_rfl
  | cons folder folders ih =>
    apply keeps_ite
    · intro _
      apply (forward_read_numbers w _ p).bind
      intro sizes q _
      apply (ih q).bind
      intro folders' q' _
      exact Forward.pure le_rfl
    · intro _
      apply (ih p).bind
      intro folders' q _
      exact Forward.pure le_rfl

theorem forward_parse_substreams_info (h : Header) (p : ℕ) :
    Forward p (parse_substreams_info w h p) := by
  apply forward_records
  intro type h p
  apply keeps_ite
  · intro _
    apply (forward_read_num_substreams w h.folders p).bind
    intro folders q _
    exact Forward.pure le_rfl
  · intro _
    apply keeps_ite
    · intro _
      apply (forward_read_substream_sizes w h.folders p).bind
      intro folders q _
      exact Forward.pure le_rfl
    · intro _
      apply keeps_ite
      · intro _
        apply keeps_ite
        · exact fun _ ↦ Forward.pure le_rfl
        · intro _
          apply (sized_read_crc_section w p (total h.folders)).bind
          rintro ⟨crcs, q⟩ ⟨hlen, hq⟩
          apply safe_perform
          · exact hlen
          · exact fun folders ↦ Forward.pure hq
      · exact fun _ ↦ keeps_fail

theorem forward_parse_main_streams (h : Header) (p : ℕ) :
    Forward p (parse_main_streams w h p) := by
  apply forward_records
  intro type h p
  apply keeps_ite
  · exact fun _ ↦ forward_parse_pack_info w h p
  · intro _
    apply keeps_ite
    · exact fun _ ↦ forward_parse_unpack_info w h p
    · intro _
      apply keeps_ite
      · exact fun _ ↦ forward_parse_substreams_info w h p
      · exact fun _ ↦ keeps_fail

end Streams

section Files

variable (w : Window)

theorem safe_read_unit {w : Window} {q : ℕ} (h : q + 2 ≤ w.stop) :
    Safe (read_unit w q) fun _ ↦ True :=
  ⟨h, fun _ _ ↦ trivial⟩

theorem safe_utf16le_to_utf8 {w : Window} {nend : ℕ} (hend : nend ≤ w.stop) {n : ℕ} (q : ℕ)
    {out : List UInt8} (hn : 0 < n) (hout : 1024 ≤ out.length + n) :
    Safe (utf16le_to_utf8 w nend n q out) fun _ ↦ True := by
  induction n generalizing q out with
  | zero => cases hn
  | succ n ih =>
    rw [utf16le_to_utf8]
    apply keeps_ite
    · rintro ⟨hq, hroom⟩
      have hmore (q' : ℕ) (b : UInt8) (bs : List UInt8) :
          Safe (utf16le_to_utf8 w nend n q' (out ++ b :: bs)) fun _ ↦ True := by
        have hlen : (out ++ b :: bs).length = out.length + (bs.length + 1) := List.length_append
        apply ih
        · omega
        · omega
      apply (safe_read_unit (by omega)).bind
      intro cp _
      apply keeps_ite
      · exact fun _ ↦ safe_perform trivial fun _ ↦ trivial
      · intro _
        apply keeps_ite
        · exact fun _ ↦ hmore _ _ _
        · intro _
          apply keeps_ite
          · exact fun _ ↦ safe_perform trivial fun _ ↦ hmore _ _ _
          · intro _
            apply keeps_ite
            · rintro ⟨-, -, hlow⟩
              apply (safe_read_unit (by omega)).bind
              intro lo _
              exact safe_perform trivial fun _ ↦ hmore _ _ _
            · exact fun _ ↦ safe_perform trivial fun _ ↦ hmore _ _ _
    · exact fun _ ↦ safe_perform trivial fun _ ↦ trivial

theorem safe_read_names {w : Window} {nend : ℕ} (hend : nend ≤ w.stop) (files : List FileInfo)
    (np : ℕ) : Safe (read_names w nend files np) fun _ ↦ True := by
  induction files generalizing np with
  | nil => trivial
  | cons file files ih =>
    apply keeps_ite
    · intro _
      apply (safe_utf16le_to_utf8 hend np (by decide) (by decide)).bind
      intro name _
      exact (ih _).bind fun _ _ ↦ trivial
    · exact fun _ ↦ trivial

theorem safe_names_start {w : Window} {nend : ℕ} (hend : nend ≤ w.stop) (p : ℕ) :
    Safe (names_start w p nend) fun _ ↦ True := by
  apply keeps_ite
  · intro hp
    apply safe_perform
    · exact hp.trans_le hend
    · exact fun _ ↦ trivial
  · exact fun _ ↦ trivial

theorem safe_skip_record (p : ℕ) : Safe (skip_record w p) fun q ↦ p ≤ q := by
  apply Keeps.bind (forward_read_number w p)
  rintro ⟨s, q⟩ hq
  apply safe_perform
  · exact trivial
  intro _
  apply safe_require
  intro _
  exact hq.trans (Nat.le_add_right q s.toNat)

theorem forward_file_record (num_files : ℕ) (type : UInt8) (h : Header) (p : ℕ) :
    Forward p (file_record w num_files type h p) := by
  apply keeps_ite
  · intro _
    apply (sized_vectorBytes w (bitBytes num_files) p).bind
    rintro ⟨vec, q⟩ ⟨hlen, hq⟩
    apply safe_perform
    · exact hlen
    · exact fun bits ↦ Forward.pure hq
  intro _
  apply keeps_ite
  · intro _
    apply (sized_vectorBytes w (bitBytes _) p).bind
    rintro ⟨vec, q⟩ ⟨hlen, hq⟩
    apply safe_perform
    · exact hlen
    · exact fun bits ↦ Forward.pure hq
  intro _
  apply keeps_ite
  · intro _
    apply (forward_read_count w p).bind
    intro names_size q _
    apply safe_require
    intro hend
    apply (safe_names_start hend q).bind
    intro np _
    apply (safe_read_names hend h.files np).bind
    intro files _
    exact Forward.pure (Nat.le_add_right q names_size)
  intro _
  apply keeps_ite
  · intro _
    apply (forward_read_crc_section w p num_files).bind
    intro crcs q _
    exact Forward.pure le_rfl
  · intro _
    apply (safe_skip_record w p).bind
    intro q hq
    exact Forward.pure hq

theorem forward_parse_files_info (h : Header) (p : ℕ) : Forward p (parse_files_info w h p) := by
  apply (forward_read_count w p).bind
  intro num_files q _
  apply safe_require
  intro _
  exact forward_records (forward_file_record w num_files) _ q

end Files

section Headers

theorem safe_parse_header (w : Window) (h : Header) (p : ℕ) :
    Safe (parse_header w h p) fun _ ↦ True := by
  apply Keeps.bind (Q := fun _ ↦ True)
  · apply Keeps.mono (forward_records _ h p) fun _ _ ↦ trivial
    intro type h p
    apply keeps_ite
    · exact fun _ ↦ forward_parse_main_streams w h p
    intro _
    apply keeps_ite
    · exact fun _ ↦ forward_parse_files_info w h p
    intro _
    apply keeps_ite
    · intro _
      apply (safe_skip_record w p).bind
      intro q hq
      exact Forward.pure hq
    · exact fun _ ↦ keeps_fail
  · rintro ⟨h, q⟩ _
    exact safe_perform trivial fun _ ↦ trivial

theorem safe_entryOf (table : Option (List UInt64)) (i : ℕ) :
    Safe (entryOf table i) fun _ ↦ True :=
  safe_perform trivial fun _ ↦ trivial

theorem safe_firstProperty (coder : Coder) : Safe (firstProperty coder) fun _ ↦ True :=
  safe_perform trivial fun _ ↦ trivial

theorem safe_ofOption (a : Option α) : Safe (ofOption a) fun _ ↦ True := by
  cases a with
  | none => exact keeps_fail
  | some a => trivial

theorem safe_sum_sizes (sizes : Option (List UInt64)) (n i : ℕ) :
    Safe (sum_sizes sizes n i) fun _ ↦ True := by
  induction n generalizing i with
  | zero => trivial
  | succ n ih =>
    apply (safe_entryOf sizes i).bind
    intro size _
    exact (ih (i + 1)).bind fun _ _ ↦ trivial

theorem safe_decode (out : Outside) (coder : Coder) (packed : List UInt8) (out_size : UInt64) :
    Safe (decode out coder packed out_size) fun _ ↦ True := by
  rw [decode.eq_def]
  split
  · trivial
  · trivial
  · apply keeps_ite
    · intro _
      apply (safe_firstProperty coder).bind
      exact fun prop _ ↦ safe_ofOption _
    · exact fun _ ↦ safe_ofOption _
  · apply (safe_firstProperty coder).bind
    exact fun prop _ ↦ safe_ofOption _
  · exact keeps_fail

theorem safe_decode_folder (out : Outside) (h : Header) (folder : Folder) :
    Safe (decode_folder out h folder) fun _ ↦ True := by
  rw [decode_folder]
  split
  · apply safe_require
    intro _
    apply (safe_sum_sizes h.packed_sizes _ 0).bind
    intro off _
    apply (safe_entryOf h.packed_sizes _).bind
    intro packed_size _
    apply (safe_ofOption _).bind
    intro packed _
    apply (safe_entryOf folder.unpack_sizes 0).bind
    intro out_size _
    exact safe_decode out _ packed out_size
  · exact keeps_fail

theorem safe_parse_next_header (out : Outside) (addr : ℕ) (data : List UInt8) :
    Safe (parse_next_header out addr data) fun _ ↦ True := by
  apply safe_require
  intro hlen
  apply safe_perform
  · exact hlen
  intro type
  apply keeps_ite
  · exact fun _ ↦ safe_parse_header _ _ _
  intro _
  apply keeps_ite
  · intro _
    apply Keeps.bind (forward_parse_main_streams _ Header.init 1)
    rintro ⟨h, q⟩ _
    dsimp only
    split
    · apply (safe_decode_folder out h _).bind
      intro decoded _
      exact safe_parse_header _ _ _
    · exact keeps_fail
  · exact fun _ ↦ keeps_fail

/-- Nothing can be read but the header. -/
def Outside.nothing : Outside := ⟨fun _ _ ↦ none, fun _ _ _ _ _ _ _ ↦ none, 0⟩

/-- With an end record the same header is parsed. -/
example : ∃ h, Machine.after (Program.move Op.eval) 4
    (parse_next_header .nothing 0x7f0000001000 [kHeader, kEnd]) = .done (some h) := ⟨_, rfl⟩

end Headers

end Libobject.SevenZip
