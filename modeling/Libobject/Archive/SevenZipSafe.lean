import Libobject.Archive.SevenZipParse

/-!
# Which headers are parsed safely

What the parsers read behind a comparison with the end is in front of the end, and no loop of theirs
goes on for ever. What they do without a comparison has to be good by itself.
-/

namespace Libobject.SevenZip

/-- The bytes of the number that stands at the cursor are there: as many behind the first as it has
leading ones, unless the window ends before. -/
def NumberInside (w : Window) (p : ℕ) : Prop :=
  p < w.stop → p < w.data.length ∧
    ∀ j < 8, (∀ i ≤ j, w.data.getD p 0 &&& (0x80 >>> UInt8.ofNat i) ≠ 0) → p + j + 1 < w.stop →
      p + j + 1 < w.data.length

/-- Each file with a stream that is to get a sub-stream finds its size and its CRC. -/
def FilesMapped (folders : List Folder) (files : List FileInfo) : Prop :=
  ∀ (g : ℕ) (file : FileInfo) (s : Substream), files[g]? = some file → file.empty_stream = false →
    (substreams folders 0)[g]? = some s →
      (s.folder.fileSize s.i).isSome ∧ ∀ crcs ∈ s.folder.substream_crcs, s.i < crcs.length

/-- What is touched is there. -/
def Op.Inside : Op → Prop
  | number w p => NumberInside w p
  | next w p | flags w p => p < w.data.length
  | bytes w p n => p + n ≤ w.data.length
  | advance w p s => w.addr + p + s.toNat < 18446744073709551616
  | bits vec n => n ≤ 8 * vec.length
  | share crcs folders => streams folders ≤ crcs.length
  | room used more => used + more ≤ 1024
  | entry len i => i < len
  | mapping folders files => FilesMapped folders files
  | spin => False

/-- What is made sure of before: the end is far enough, and a table was made for what is read of it.
-/
def Op.Guarded : Op → Prop
  | next w p => p < w.stop
  | bytes w p n => p + n ≤ w.stop
  | bits vec n => vec.length = bitBytes n
  | share crcs folders => crcs.length = total folders
  | spin => False
  | number _ _ | flags _ _ | advance _ _ _ | room _ _ | entry _ _ | mapping _ _ => True

/-- What nothing makes sure of. Where the window ends behind the bytes, the cursor has to be in
front of their own end as well; the flags of a coder are there; a sum of pointers and the sizes of
tables do not overflow; a character has room behind those before it; and the tables that a folder is
decoded with, and files are mapped with, were made. -/
def Op.Checked : Op → Prop
  | number w p => w.data.length < w.stop → NumberInside w p
  | next w p => w.data.length < w.stop → p < w.data.length
  | bytes w p n => w.data.length < w.stop → p + n ≤ w.data.length
  | flags w p => p < w.data.length
  | advance w p s => w.addr + p + s.toNat < 18446744073709551616
  | bits _ n => n + 7 < 4294967296
  | share _ folders => streams folders < 4294967296
  | room used more => used + more ≤ 1024
  | entry len i => i < len
  | mapping folders files => FilesMapped folders files
  | spin => True

/-- The cursor does not go back, and there are as many bits as were to be read. -/
def Op.Gives : ∀ o : Op, o.Res → Prop
  | number _ p, r => p ≤ r.2
  | bits _ n, r => r.length = n
  | next _ _, _ | flags _ _, _ | bytes _ _ _, _ | advance _ _ _, _ | share _ _, _ | room _ _, _
  | entry _ _, _ | mapping _ _, _ | spin, _ => True

section Operations

theorem numberFrom_isSome (w : Window) (first : UInt8) (n i : ℕ) (value : UInt64) (p : ℕ) :
    (numberFrom w first n i value p).isSome ↔
      ∀ j < n, (∀ k ≤ j, first &&& (0x80 >>> UInt8.ofNat (i + k)) ≠ 0) → p + j + 1 < w.stop →
        p + j + 1 < w.data.length := by
  induction n generalizing i value p with
  | zero => simp [numberFrom]
  | succ n ih =>
    rw [numberFrom]
    by_cases hbit : first &&& (0x80 >>> UInt8.ofNat i) = 0
    · rw [if_pos hbit]
      refine ⟨fun _ j _ hall ↦ ?_, fun _ ↦ rfl⟩
      exact absurd hbit (hall 0 (Nat.zero_le _))
    · rw [if_neg hbit]
      by_cases hstop : w.stop ≤ p + 1
      · rw [if_pos hstop]
        exact ⟨fun _ j _ _ hlt ↦ by omega, fun _ ↦ rfl⟩
      · rw [if_neg hstop]
        have hstep (j : ℕ) : (∀ k ≤ j + 1, first &&& (0x80 >>> UInt8.ofNat (i + k)) ≠ 0) ↔
            ∀ k ≤ j, first &&& (0x80 >>> UInt8.ofNat (i + 1 + k)) ≠ 0 := by
          constructor
          · intro h k hk
            have hnext := h (k + 1) (by omega)
            rwa [← Nat.add_assoc, Nat.add_right_comm] at hnext
          · intro h k hk
            cases k with
            | zero => exact hbit
            | succ k =>
              have hprev := h k (by omega)
              rwa [Nat.add_right_comm, Nat.add_assoc] at hprev
        cases hget : w.data[p + 1]? with
        | none =>
          rw [List.getElem?_eq_none_iff] at hget
          refine ⟨fun h ↦ (nomatch h), fun h ↦ ?_⟩
          have hfirst := h 0 (Nat.succ_pos n) (fun k hk ↦ by
            rw [Nat.le_zero.1 hk]
            exact hbit) (by omega)
          omega
        | some b =>
          obtain ⟨hlt, -⟩ := List.getElem?_eq_some_iff.1 hget
          dsimp only
          rw [ih]
          constructor
          · intro h j hj hall hj'
            cases j with
            | zero => omega
            | succ j =>
              have hrest := h j (by omega) ((hstep j).1 hall) (by omega)
              omega
          · intro h j hj hall hj'
            have hrest := h (j + 1) (by omega) ((hstep j).2 hall) (by omega)
            omega

theorem numberAt_isSome (w : Window) (p : ℕ) : (numberAt w p).isSome ↔ NumberInside w p := by
  rw [numberAt, NumberInside]
  by_cases hstop : w.stop ≤ p
  · rw [if_pos hstop]
    exact ⟨fun _ h ↦ absurd h (by omega), fun _ ↦ rfl⟩
  · rw [if_neg hstop]
    cases hget : w.data[p]? with
    | none =>
      rw [List.getElem?_eq_none_iff] at hget
      refine ⟨fun h ↦ (nomatch h), fun h ↦ ?_⟩
      have hlt := (h (by omega)).1
      omega
    | some first =>
      obtain ⟨hlt, hval⟩ := List.getElem?_eq_some_iff.1 hget
      have hfirst : w.data.getD p 0 = first := by
        rw [List.getD_eq_getElem?_getD, hget, Option.getD_some]
      dsimp only
      rw [numberFrom_isSome, hfirst]
      simp only [Nat.zero_add]
      exact ⟨fun h _ ↦ ⟨hlt, h⟩, fun h ↦ (h (by omega)).2⟩

theorem le_numberFrom {w : Window} {first : UInt8} {n i : ℕ} {value : UInt64} {p : ℕ}
    {r : UInt64 × ℕ} (h : numberFrom w first n i value p = some r) : p ≤ r.2 := by
  induction n generalizing i value p with
  | zero =>
    cases h
    exact Nat.le_succ p
  | succ n ih =>
    rw [numberFrom] at h
    split at h
    · cases h
      exact Nat.le_succ p
    · split at h
      · cases h
        exact Nat.le_succ p
      · split at h
        · cases h
        · exact (Nat.le_succ p).trans (ih h)

theorem le_numberAt {w : Window} {p : ℕ} {r : UInt64 × ℕ} (h : numberAt w p = some r) :
    p ≤ r.2 := by
  rw [numberAt] at h
  split at h
  · cases h
    exact le_rfl
  · split at h
    · cases h
    · exact le_numberFrom h

theorem mapTo_isSome (file : FileInfo) (folder : Folder) (f i : ℕ) :
    (file.mapTo folder f i).isSome ↔
      (folder.fileSize i).isSome ∧ ∀ crcs ∈ folder.substream_crcs, i < crcs.length := by
  rw [FileInfo.mapTo, Folder.fileCrc]
  cases hsize : folder.fileSize i with
  | none => simp
  | some size =>
    cases hcrcs : folder.substream_crcs with
    | none => simp
    | some crcs =>
      cases hget : crcs[i]? with
      | none =>
        rw [List.getElem?_eq_none_iff] at hget
        simp [hget]
      | some crc =>
        obtain ⟨hlt, -⟩ := List.getElem?_eq_some_iff.1 hget
        simp [hlt]

theorem mapped_isSome (subs : List Substream) (files : List FileInfo) :
    (mapped subs files).isSome ↔
      ∀ (g : ℕ) (file : FileInfo) (s : Substream), files[g]? = some file →
        file.empty_stream = false → subs[g]? = some s →
          (file.mapTo s.folder s.f s.i).isSome := by
  induction subs generalizing files with
  | nil => exact ⟨fun _ g file s _ _ h ↦ (nomatch h), fun _ ↦ rfl⟩
  | cons s subs ih =>
    cases files with
    | nil => exact ⟨fun _ g file s h ↦ (nomatch h), fun _ ↦ rfl⟩
    | cons file files =>
      have hplaced : (file.placed (some s)).isSome ↔
          (file.empty_stream = false → (file.mapTo s.folder s.f s.i).isSome) := by
        rw [FileInfo.placed]
        cases hempty : file.empty_stream with
        | false => simp
        | true => simp
      have hboth : (mapped (s :: subs) (file :: files)).isSome ↔
          (file.placed (some s)).isSome ∧ (mapped subs files).isSome := by
        rw [mapped]
        cases file.placed (some s) with
        | none => simp
        | some file' =>
          cases mapped subs files with
          | none => simp
          | some files' => simp
      rw [hboth, hplaced, ih]
      constructor
      · rintro ⟨hfirst, hrest⟩ g file' s' hfile hempty hs
        cases g with
        | zero =>
          cases Option.some.inj hfile
          cases Option.some.inj hs
          exact hfirst hempty
        | succ g => exact hrest g file' s' hfile hempty hs
      · intro h
        exact ⟨fun hempty ↦ h 0 file s rfl hempty rfl,
          fun g file' s' hfile hempty hs ↦ h (g + 1) file' s' hfile hempty hs⟩

theorem isSome_ite {α : Type} {c : Prop} [Decidable c] {a : α} :
    (if c then some a else none).isSome ↔ c := by
  split_ifs with h
  · exact iff_of_true rfl h
  · exact iff_of_false Bool.false_ne_true h

theorem eval_isSome_iff (o : Op) : o.eval.isSome ↔ o.Inside := by
  cases o with
  | number w p => exact numberAt_isSome w p
  | next w p | flags w p =>
    rw [Op.eval, Op.Inside, Option.isSome_iff_ne_none, Ne, List.getElem?_eq_none_iff, not_le]
  | bytes w p n =>
    rw [Op.eval, Op.Inside]
    exact isSome_ite
  | advance w p s =>
    rw [Op.eval, Op.Inside]
    exact isSome_ite
  | bits vec n =>
    rw [Op.eval, Op.Inside]
    exact isSome_ite
  | share crcs folders =>
    rw [Op.eval, Op.Inside]
    exact isSome_ite
  | room used more =>
    rw [Op.eval, Op.Inside]
    exact isSome_ite
  | entry len i =>
    rw [Op.eval, Op.Inside]
    exact isSome_ite
  | mapping folders files =>
    rw [Op.eval, Op.Inside, map_files_eq, mapped_isSome, FilesMapped]
    simp only [mapTo_isSome]
  | spin => exact iff_of_false Bool.false_ne_true id

theorem gives_of_eval (o : Op) (r : o.Res) (h : o.eval = some r) : o.Gives r := by
  cases o with
  | number w p => exact le_numberAt h
  | bits vec n =>
    rw [Op.eval] at h
    split_ifs at h
    cases h
    rw [Op.Gives, List.length_map, List.length_range]
  | next | flags | bytes | advance | share | room | entry | mapping | spin => trivial

theorem inside_iff {o : Op} (h : o.Guarded) : o.Inside ↔ o.Checked := by
  cases o with
  | number w p =>
    refine ⟨fun hin _ ↦ hin, fun hchecked ↦ ?_⟩
    by_cases hstop : w.data.length < w.stop
    · exact hchecked hstop
    · intro hp
      exact ⟨by omega, fun j _ _ hj ↦ by omega⟩
  | next w p =>
    have hp : p < w.stop := h
    refine ⟨fun hin _ ↦ hin, fun hchecked ↦ ?_⟩
    by_cases hstop : w.data.length < w.stop
    · exact hchecked hstop
    · show p < w.data.length
      omega
  | bytes w p n =>
    have hp : p + n ≤ w.stop := h
    refine ⟨fun hin _ ↦ hin, fun hchecked ↦ ?_⟩
    by_cases hstop : w.data.length < w.stop
    · exact hchecked hstop
    · show p + n ≤ w.data.length
      omega
  | bits vec n =>
    have hlen : vec.length = bitBytes n := h
    rw [Op.Inside, Op.Checked, hlen, bitBytes]
    omega
  | share crcs folders =>
    have hlen : crcs.length = total folders := h
    rw [Op.Inside, Op.Checked, hlen, total]
    omega
  | spin => exact h.elim
  | flags | advance | room | entry | mapping => exact Iff.rfl

end Operations

end Libobject.SevenZip
