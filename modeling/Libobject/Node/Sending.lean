import Libobject.Node.Transfer

/-!
# What a call of `fwrite` leaves

A directory is sent entry by entry. The call throws if one of the entries cannot be sent; otherwise
each listed file whose name does not end with a dot has been sent, and the other files of the
directory have not.
-/

namespace Libobject.Transfer

open Scan FileSystem Disk

/-- Where a file below the source belongs. -/
def dest (source target p : Text) : Text := target ++ p.drop source.length

/-- A regular file with its content. -/
def IsFile (d : Disk) (p : Text) (c : Content) : Prop := d.dirAt p = none ∧ d.files p = some c

/-- An entry that makes the call throw: its relative path is not found, it is a directory with
something to send in it, or a file that cannot be opened here or made there. -/
def Fails (here there : Disk) (source target p : Text) : Prop :=
  source.getLast? ≠ some 47 ∨
    match here.dirAt p, here.files p with
    | some _, _ => ∃ q, Listed here p q ∧ dotted q = false
    | none, none => True
    | none, some _ => here.refuses p = true ∨ Unwritable there (dest source target p)

/-- One entry of the list is sent. -/
def writeStep (n : ℕ) (here : Disk) (source target : Text) (there : Disk) (p : Text) : Run Disk :=
  if dotted p then return there
  else do
    let relative_path ← fs_get_relative_path p source
    fwrite n here p (target ++ relative_path) there

section Directory

variable {n : ℕ} {here there d : Disk} {source target p q : Text} {c : Content} {ns : List Text}

theorem fwrite_dir_eq (n : ℕ) (target : Text) (there : Disk) (hs : Plain source)
    (hdir : here.dirAt source = some ns) :
    fwrite (n + 1) here source target there = (do
      let list ← here.fs_tree n source
      list.foldlM (writeStep n here source target) there) := by
  have hexist : here.fs_is_exist source = .ok true := by
    rw [fs_is_exist_plain hs, hdir, Option.isSome_some, Bool.or_true]
  have hdirectory : here.fs_is_directory source = 1 := by
    rw [fs_is_directory, hdir]
    rfl
  rw [fwrite, hexist, hdirectory]
  rfl

theorem writeStep_dotted (h : dotted p = true) :
    writeStep n here source target there p = .ok there := if_pos h

theorem below_prefix (h : Below here source p) : ∃ u, u ≠ [] ∧ p = source ++ u := by
  obtain ⟨u, hu, rfl⟩ := h.starts
  obtain ⟨v, hv⟩ := slash_append source
  exact ⟨v ++ u, by simp [hu], by rw [hv, List.append_assoc]⟩

theorem writeStep_thrown (hlast : source.getLast? ≠ some 47) (hp : Below here source p)
    (hdot : dotted p = false) : writeStep n here source target there p = .error .thrown := by
  have hne := hp.ne_nil
  obtain ⟨u, -, rfl⟩ := below_prefix hp
  rw [writeStep, if_neg (by rw [hdot]; exact Bool.false_ne_true), relative_path_thrown hne hlast]
  rfl

theorem writeStep_eq (hlast : source.getLast? = some 47) (hp : Below here source p)
    (hdot : dotted p = false) :
    writeStep n here source target there p = fwrite n here p (dest source target p) there := by
  obtain ⟨u, -, rfl⟩ := below_prefix hp
  rw [writeStep, if_neg (by rw [hdot]; exact Bool.false_ne_true), relative_path hlast, dest,
    List.drop_left]
  rfl

theorem fwrite_sub (hs : Plain p) (hdir : here.dirAt p = some ns) (hlast : p.getLast? ≠ some 47) :
    fwrite n here p target there = .error .endless ∨
      (∃ q, Listed here p q ∧ dotted q = false) ∧
        fwrite n here p target there = .error .thrown ∨
      (¬∃ q, Listed here p q ∧ dotted q = false) ∧
        fwrite n here p target there = .ok there := by
  cases n with
  | zero => exact .inl rfl
  | succ n =>
    rw [fwrite_dir_eq n target there hs hdir]
    rcases fs_tree_cases n here p with ⟨list, hlist⟩ | hlist
    · right
      rw [hlist]
      have hmem : ∀ q, q ∈ list ↔ Listed here p q := fun q ↦ mem_fs_tree hdir hlist
      have hexists : (∃ q, Listed here p q ∧ dotted q = false) ↔
          ∃ q ∈ list, dotted q = false := by simp only [hmem]
      rw [hexists]
      have hbelow : ∀ q ∈ list, dotted q = false → Below here p q := fun q hq hdot ↦
        ((hmem q).mp hq).to_below hdot
      clear hmem hexists hlist
      have hrun : (∃ q ∈ list, dotted q = false) ∧
          list.foldlM (writeStep n here p target) there = .error .thrown ∨
        (¬∃ q ∈ list, dotted q = false) ∧
          list.foldlM (writeStep n here p target) there = .ok there := by
        induction list with
        | nil => exact .inr ⟨by simp, rfl⟩
        | cons q list ih =>
          obtain ⟨hq, hbelow⟩ := List.forall_mem_cons.mp hbelow
          rw [List.foldlM_cons]
          cases hdot : dotted q with
          | false =>
            refine .inl ⟨⟨q, List.mem_cons_self, hdot⟩, ?_⟩
            rw [writeStep_thrown hlast (hq hdot) hdot]
            rfl
          | true =>
            rw [writeStep_dotted hdot]
            have hexists : (∃ r ∈ q :: list, dotted r = false) ↔
                ∃ r ∈ list, dotted r = false := by simp [hdot]
            rw [hexists]
            exact ih hbelow
      exact hrun
    · left
      rw [hlist]
      rfl

end Directory

section Steps

variable {n : ℕ} {here there d d' : Disk} {source target p q : Text} {c : Content}

/-- What sending an entry that does not fail leaves. -/
def Sent (here d : Disk) (source target p : Text) (d' : Disk) : Prop :=
  (∃ c, IsFile here p c ∧ Wrote d (dest source target p) (sent c) d') ∨
    (∀ c, ¬IsFile here p c) ∧ d' = d

theorem writeStep_spec (n : ℕ) (d : Disk) (hp : Below here source p) (hdot : dotted p = false)
    (hplain : Plain p)
    (hdest : Plain (dest source target p)) :
    writeStep n here source target d p = .error .endless ∨
      Fails here d source target p ∧ writeStep n here source target d p = .error .thrown ∨
      ¬Fails here d source target p ∧
        ∃ d', writeStep n here source target d p = .ok d' ∧ Sent here d source target p d' := by
  by_cases hlast : source.getLast? = some 47
  · unfold Fails
    rw [writeStep_eq hlast hp hdot, or_iff_right (not_not_intro hlast)]
    cases hdir : here.dirAt p with
    | some ns =>
      have hno : ∀ c, ¬IsFile here p c := fun c h ↦ by
        rw [IsFile, hdir] at h
        exact nomatch h.1
      rcases fwrite_sub hplain hdir hp.last with h | ⟨hfails, h⟩ | ⟨hfails, h⟩
      · exact .inl h
      · exact .inr (.inl ⟨hfails, h⟩)
      · exact .inr (.inr ⟨hfails, d, h, .inr ⟨hno, rfl⟩⟩)
    | none =>
      cases n with
      | zero => exact .inl rfl
      | succ n =>
        cases hfile : here.files p with
        | none =>
          refine .inr (.inl ⟨trivial, ?_⟩)
          have hexist : here.fs_is_exist p = .ok false := by
            rw [fs_is_exist_plain hplain, hfile, hdir]
            rfl
          rw [fwrite, hexist]
          rfl
        | some c =>
          rcases fwrite_file here d n hplain hdest hfile hdir with
            ⟨hfails, h⟩ | ⟨hfails, d', h, hwrote⟩
          · exact .inr (.inl ⟨hfails, h⟩)
          · exact .inr (.inr ⟨hfails, d', h, .inl ⟨c, ⟨hdir, hfile⟩, hwrote⟩⟩)
  · exact .inr (.inl ⟨.inl hlast, writeStep_thrown hlast hp hdot⟩)

theorem dest_last (hp : Below here source p) : (dest source target p).getLast? ≠ some 47 := by
  obtain ⟨u, hu, rfl⟩ := below_prefix hp
  have hlast := hp.last
  rw [dest, List.drop_left, List.getLast?_append_of_ne_nil target hu]
  rwa [List.getLast?_append_of_ne_nil source hu] at hlast

theorem dest_inj (hp : Below here source p) (hq : Below here source q)
    (h : dest source target p = dest source target q) : p = q := by
  obtain ⟨u, -, rfl⟩ := below_prefix hp
  obtain ⟨v, -, rfl⟩ := below_prefix hq
  rw [dest, dest, List.drop_left, List.drop_left, List.append_cancel_left_eq] at h
  rw [h]

theorem trim_dest_ne (target : Text) (hp : Below here source p) (hq : Below here source q)
    (hne : p ≠ q) :
    trim (dest source target p) ≠ trim (dest source target q) := by
  rw [trim_of_last (dest_last hp), trim_of_last (dest_last hq)]
  exact fun h ↦ hne (dest_inj hp hq h)

theorem fails_sent_iff (hp : Below here source p) (hq : Below here source q)
    (hnot : ¬Fails here d source target p) (h : Sent here d source target p d') :
    Fails here d' source target q ↔ Fails here d source target q := by
  rcases h with ⟨c, hfile, hwrote⟩ | ⟨-, rfl⟩
  · unfold Fails
    refine or_congr_right ?_
    cases hdir : here.dirAt q with
    | some ns => exact Iff.rfl
    | none =>
      cases hq' : here.files q with
      | none => exact Iff.rfl
      | some c' =>
        refine or_congr_right ?_
        by_cases heq : p = q
        · subst heq
          have hw : ¬Unwritable d (dest source target p) := fun hun ↦ hnot (.inr (by
            rw [hdir, hq']
            exact .inr hun))
          refine iff_of_false ?_ hw
          rintro (hrefuses | hun)
          · rw [hwrote.refuses, hwrote.writable] at hrefuses
            exact nomatch hrefuses
          · rw [hwrote.files_self, hwrote.dir] at hun
            exact nomatch hun
        · have htrim := trim_dest_ne target hq hp (Ne.symm heq)
          have hne : dest source target q ≠ dest source target p := fun h ↦ htrim (by rw [h])
          unfold Unwritable
          rw [hwrote.refuses, hwrote.files_ne hne, hwrote.dirs _ htrim]
  · exact Iff.rfl

end Steps

theorem isFile_unique {d : Disk} {p : Text} {c c' : Content} (h : IsFile d p c)
    (h' : IsFile d p c') : c = c' := Option.some.inj (h.2.symm.trans h'.2)

theorem foldlM_writeStep (n : ℕ) {here : Disk} (d : Disk) {source target : Text} {list : List Text}
    (hlist : ∀ p ∈ list, dotted p = false →
      Below here source p ∧ Plain p ∧ Plain (dest source target p)) :
    list.foldlM (writeStep n here source target) d = .error .endless ∨
      (∃ p ∈ list, dotted p = false ∧ Fails here d source target p) ∧
        list.foldlM (writeStep n here source target) d = .error .thrown ∨
      (¬∃ p ∈ list, dotted p = false ∧ Fails here d source target p) ∧
        ∃ d', list.foldlM (writeStep n here source target) d = .ok d' ∧
          (∀ p ∈ list, dotted p = false → ∀ c, IsFile here p c →
            d'.files (dest source target p) = some (sent c)) ∧
          ∀ q, (∀ p ∈ list, dotted p = false → ∀ c, IsFile here p c →
            dest source target p ≠ q) → d'.files q = d.files q := by
  induction list generalizing d with
  | nil => exact .inr (.inr ⟨by simp, d, rfl, by simp, fun _ _ ↦ rfl⟩)
  | cons p list ih =>
    obtain ⟨hp, htail⟩ := List.forall_mem_cons.mp hlist
    rw [List.foldlM_cons]
    cases hdot : dotted p with
    | true =>
      rw [writeStep_dotted hdot]
      have hexists : (∃ q ∈ p :: list, dotted q = false ∧ Fails here d source target q) ↔
          ∃ q ∈ list, dotted q = false ∧ Fails here d source target q := by simp [hdot]
      have hall : ∀ P : Text → Prop, (∀ q ∈ p :: list, dotted q = false → P q) ↔
          ∀ q ∈ list, dotted q = false → P q := fun P ↦ by simp [hdot]
      simp only [hexists, hall]
      exact ih d htail
    | false =>
      obtain ⟨hbelow, hplain, hdest⟩ := hp hdot
      rcases writeStep_spec n d hbelow hdot hplain hdest with
        h | ⟨hfails, h⟩ | ⟨hfails, d₁, h, hsent⟩
      · left
        rw [h]
        rfl
      · refine .inr (.inl ⟨⟨p, List.mem_cons_self, hdot, hfails⟩, ?_⟩)
        rw [h]
        rfl
      · rw [h]
        have hsame : (∃ q ∈ list, dotted q = false ∧ Fails here d₁ source target q) ↔
            ∃ q ∈ p :: list, dotted q = false ∧ Fails here d source target q := by
          constructor
          · rintro ⟨q, hq, hqdot, hqfails⟩
            exact ⟨q, List.mem_cons_of_mem p hq, hqdot,
              (fails_sent_iff hbelow (htail q hq hqdot).1 hfails hsent).mp hqfails⟩
          · rintro ⟨q, hq, hqdot, hqfails⟩
            rcases List.mem_cons.mp hq with rfl | hq
            · exact absurd hqfails hfails
            · exact ⟨q, hq, hqdot,
                (fails_sent_iff hbelow (htail q hq hqdot).1 hfails hsent).mpr hqfails⟩
        have hrest := ih d₁ htail
        rw [hsame] at hrest
        refine hrest.imp_right (Or.imp_right ?_)
        rintro ⟨hnone, d', hrun, hfiles, hkept⟩
        refine ⟨hnone, d', hrun, ?_, ?_⟩
        · intro r hr hrdot c hc
          rcases List.mem_cons.mp hr with rfl | hr
          · by_cases hagain : r ∈ list
            · exact hfiles r hagain hrdot c hc
            · have hother : ∀ q ∈ list, dotted q = false → ∀ c', IsFile here q c' →
                  dest source target q ≠ dest source target r := by
                intro q hq hqdot c' hc' heq
                exact hagain (dest_inj (htail q hq hqdot).1 hbelow heq ▸ hq)
              rw [hkept _ hother]
              rcases hsent with ⟨c', hc', hwrote⟩ | ⟨hno, -⟩
              · rw [hwrote.files_self, isFile_unique hc hc']
              · exact absurd hc (hno c)
          · exact hfiles r hr hrdot c hc
        · intro q hq
          obtain ⟨hqp, hqlist⟩ := List.forall_mem_cons.mp hq
          rw [hkept q hqlist]
          rcases hsent with ⟨c', hc', hwrote⟩ | ⟨-, rfl⟩
          · exact hwrote.files_ne (Ne.symm (hqp hdot c' hc'))
          · rfl

/-! ## What a call that reports success has done -/

/-- A call that succeeds leaves what it should; one that goes wrong reports no success. -/
def Reports {α : Type} (r : Run α) (P : α → Prop) : Prop :=
  match r with
  | .ok a => P a
  | .error .undefined => False
  | .error _ => True

/-- Each file below the source is where it belongs. -/
def Delivered (from' : Disk) (source target : Text) (d : Disk) : Prop :=
  ∀ p c, Below from' source p → IsFile from' p c → d.files (dest source target p) = some c

section Success

variable {n : ℕ} {here there : Disk} {source target : Text} {c : Content} {ns : List Text}

theorem fwrite_file_reports_iff (n : ℕ) (hs : Plain source) (ht : Plain target)
    (hfile : IsFile here source c) :
    Reports (fwrite (n + 1) here source target there) (fun d ↦ d.files target = some c) ↔
      here.refuses source = true ∨ Unwritable there target ∨ c.length < 4294967296 := by
  rw [← or_assoc]
  rcases fwrite_file here there n hs ht hfile.2 hfile.1 with ⟨hfails, h⟩ | ⟨hfails, d', h, hwrote⟩
  · rw [h]
    exact iff_of_true trivial (.inl hfails)
  · rw [h, or_iff_right hfails, ← sent_eq_iff]
    exact (congrArg (· = some c) hwrote.files_self).to_iff.trans Option.some_inj

/-- The files that a call which succeeds sends. -/
def Chosen (d : Disk) (source p : Text) : Prop := Listed d source p ∧ dotted p = false

theorem fwrite_dir_reports_iff (hs : Plain source) (hdir : here.dirAt source = some ns)
    (hplain : ∀ p, Chosen here source p → Plain p ∧ Plain (dest source target p))
    (hreturns : fwrite (n + 1) here source target there ≠ .error .endless) :
    Reports (fwrite (n + 1) here source target there) (Delivered here source target) ↔
      (∃ p, Chosen here source p ∧ Fails here there source target p) ∨
        ∀ p c, Below here source p → IsFile here p c →
          (Chosen here source p → c.length < 4294967296) ∧
            (¬Chosen here source p → there.files (dest source target p) = some c) := by
  have hrun := fwrite_dir_eq n target there hs hdir
  rcases fs_tree_cases n here source with ⟨list, hlist⟩ | hlist
  · have hmem : ∀ q, q ∈ list ↔ Listed here source q := fun q ↦ mem_fs_tree hdir hlist
    have hfold := foldlM_writeStep n there fun p hp hdot ↦
      ⟨((hmem p).mp hp).to_below hdot, hplain p ⟨(hmem p).mp hp, hdot⟩⟩
    have hexists : (∃ p ∈ list, dotted p = false ∧ Fails here there source target p) ↔
        ∃ p, Chosen here source p ∧ Fails here there source target p := by
      simp only [hmem, Chosen, and_assoc]
    rw [hlist] at hrun
    have hrun' : fwrite (n + 1) here source target there =
        list.foldlM (writeStep n here source target) there := hrun
    rw [hrun'] at hreturns ⊢
    rw [hexists] at hfold
    rcases hfold with h | ⟨hfails, h⟩ | ⟨hfails, d', h, hfiles, hkept⟩
    · exact absurd h hreturns
    · rw [h]
      exact iff_of_true trivial (.inl hfails)
    · rw [h, or_iff_right hfails]
      have hchosen : ∀ p, Chosen here source p ↔ p ∈ list ∧ dotted p = false := fun p ↦ by
        rw [Chosen, hmem]
      refine forall_congr' fun p ↦ forall_congr' fun c ↦ forall_congr' fun hp ↦
        forall_congr' fun hc ↦ ?_
      by_cases hp' : Chosen here source p
      · obtain ⟨hplist, hdot⟩ := (hchosen p).mp hp'
        rw [hfiles p hplist hdot c hc, Option.some_inj, sent_eq_iff]
        exact ⟨fun hlt ↦ ⟨fun _ ↦ hlt, fun hno ↦ absurd hp' hno⟩, fun hboth ↦ hboth.1 hp'⟩
      · have hother : ∀ q ∈ list, dotted q = false → ∀ c', IsFile here q c' →
            dest source target q ≠ dest source target p := by
          intro q hq hqdot c' _ heq
          have hqp := dest_inj (((hmem q).mp hq).to_below hqdot) hp heq
          subst hqp
          exact hp' ((hchosen q).mpr ⟨hq, hqdot⟩)
        rw [hkept _ hother]
        exact ⟨fun hsame ↦ ⟨fun hyes ↦ absurd hyes hp', fun _ ↦ hsame⟩, fun hboth ↦ hboth.2 hp'⟩
  · rw [hlist] at hrun
    exact absurd hrun hreturns

end Success

end Libobject.Transfer
