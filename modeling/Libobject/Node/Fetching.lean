import Libobject.Node.Sending

/-!
# What a call of `fread` leaves

The list of what there is to get has to have sizes that are C integers. What is got is appended to
what was there. A directory below the source makes the call throw, unless its name ends with a dot.
-/

namespace Libobject.Transfer

open Scan FileSystem Disk

/-- The file is not opened in mode `a+`, nor made before. -/
def Unopenable (d : Disk) (p : Text) : Prop :=
  d.refuses p = true ∨ (d.dirAt p).isSome = true ∨ d.files p = none ∧ 47 ∉ p ∧ 92 ∉ p

section Blocks

variable {there here here' : Disk} {p e source target : Text} {c old : Content}

theorem read_file (hp : Plain p) (hfile : IsFile there p c) (hw : there.refuses p = false)
    {offset len : ℕ} (hle : offset + len ≤ c.length) :
    node_read_file there p offset len = .ok (there, (c.drop offset).take len) := by
  have hexist : there.fs_is_exist p = .ok true := by
    rw [fs_is_exist_plain hp, hfile.2]
    rfl
  have hopen : there.openAppend p = .ok (there, p) := by
    rw [openAppend_plain hp, hfile.1, hfile.2, hw]
    rfl
  have hlen : ((c.drop offset).take len).length = len := by
    rw [List.length_take, List.length_drop]
    omega
  rw [node_read_file, hexist]
  simp only [bind, Except.bind, hopen, hfile.2, Option.getD_some, hlen, if_true,
    Bool.true_eq_false, if_false]
  rfl

theorem read_file_thrown (hp : Plain p)
    (h : there.refuses p = true ∨ (there.dirAt p).isSome = true ∨ there.files p = none)
    (offset len : ℕ) : node_read_file there p offset len = .error .thrown := by
  rw [node_read_file, fs_is_exist_plain hp]
  cases hexist : (there.files p).isSome || (there.dirAt p).isSome with
  | false => rfl
  | true =>
    have hopen : there.openAppend p = .error .thrown := by
      rw [openAppend_plain hp]
      refine if_pos (h.imp_right fun hrest ↦ ?_)
      rcases hrest with hdir | hnone
      · exact hdir
      · rwa [hnone, Option.isSome_none, Bool.false_or] at hexist
    simp only [bind, Except.bind, hopen, Bool.true_eq_false, if_false]

theorem readBlocks_file (hp : Plain p) (hfile : IsFile there p c) (hw : there.refuses p = false)
    {j n : ℕ} (hle : j * 1024 ≤ c.length) (hn : (c.length - j * 1024) / 1024 = n)
    (hold : here.files e = some old) (hdir : here.dirAt e = none) (hwe : here.refuses e = false) :
    ∃ here', readBlocks p e c.length (n + 1) j (j * 1024) (there, here) = .ok (there, here') ∧
      Wrote here e (old ++ c.drop (j * 1024)) here' := by
  induction n generalizing j here old with
  | zero =>
    have hlast : c.length - j * 1024 < 1024 := (Nat.div_eq_zero_iff_lt (by decide)).mp hn
    have hread := read_file hp hfile hw (Nat.add_sub_of_le hle).le
    have hall : (c.drop (j * 1024)).take (c.length - j * 1024) = c.drop (j * 1024) :=
      List.take_of_length_le (by rw [List.length_drop])
    have hwrote := wrote_write hdir hwe (c.drop (j * 1024))
    rw [hold] at hwrote
    refine ⟨here.write e (c.drop (j * 1024)), ?_, hwrote⟩
    rw [readBlocks, if_neg (by omega), hread, hall]
    rfl
  | succ n ih =>
    have hmore : 1024 ≤ c.length - j * 1024 := by
      by_contra hlt
      rw [Nat.div_eq_of_lt (by omega)] at hn
      exact nomatch hn
    have hlen : (if 1024 < c.length - j * 1024 then 1024 else c.length - j * 1024) = 1024 := by
      split_ifs <;> omega
    have hread := read_file hp hfile hw (Nat.add_le_of_le_sub' hle hmore)
    have hwrote := wrote_write hdir hwe ((c.drop (j * 1024)).take 1024)
    rw [hold] at hwrote
    have hnext : (j + 1) * 1024 = j * 1024 + 1024 := Nat.succ_mul j 1024
    have hdiv : (c.length - (j + 1) * 1024) / 1024 = n := by
      rw [hnext, ← Nat.sub_sub]
      have hsub : c.length - j * 1024 = c.length - j * 1024 - 1024 + 1024 := by omega
      rw [hsub, Nat.add_div_right _ (by decide)] at hn
      exact Nat.succ.inj hn
    have hle' : (j + 1) * 1024 ≤ c.length := by
      rw [hnext]
      exact Nat.add_le_of_le_sub' hle hmore
    obtain ⟨here', hrun, hwrote'⟩ := ih hle' hdiv hwrote.files_self hwrote.dir
      (by rw [hwrote.refuses, hwe])
    refine ⟨here', ?_, ?_⟩
    · rw [readBlocks, hlen, hread]
      rw [hnext] at hrun
      exact hrun
    · have hsplit : c.drop (j * 1024) =
          (c.drop (j * 1024)).take 1024 ++ c.drop ((j + 1) * 1024) := by
        rw [hnext, ← List.drop_drop]
        exact (List.take_append_drop 1024 _).symm
      rw [hsplit, ← List.append_assoc]
      exact hwrote.trans hwrote'

/-- What becomes of a target that is written to from its end on. -/
def fetched (here : Disk) (q : Text) (c : Content) : Content := (here.files q).getD [] ++ c

/-- The target is opened in mode `a+`, and made before if it is not there. -/
def openTarget (here : Disk) (e : Text) : Run (Disk × Text) := do
  let ex ← here.fs_is_exist e
  let here ← (if ex = false then here.fs_mkfile e else .ok here)
  here.openAppend e

theorem openAppend_thrown (here : Disk) (he : Plain e)
    (h : here.refuses e = true ∨ (here.dirAt e).isSome = true) :
    here.openAppend e = .error .thrown := by
  rw [openAppend_plain he, if_pos h]

theorem openTarget_cases (here : Disk) (he : Plain e) :
    Unopenable here e ∧ openTarget here e = .error .thrown ∨
      ¬Unopenable here e ∧ ∃ d, openTarget here e = .ok (d, e) ∧
        Wrote here e ((here.files e).getD []) d := by
  unfold Unopenable
  rw [openTarget, fs_is_exist_plain he]
  by_cases hw : here.refuses e = true
  · refine .inl ⟨.inl hw, ?_⟩
    cases (here.files e).isSome || (here.dirAt e).isSome with
    | false =>
      have hmk : here.fs_mkfile e = .error .thrown := if_pos (.inl hw)
      simp only [bind, Except.bind, if_true, hmk]
    | true =>
      have hopen := openAppend_thrown here he (.inl hw)
      simp only [bind, Except.bind, Bool.true_eq_false, if_false, hopen]
  · have hw' : here.refuses e = false := by simpa using hw
    rw [or_iff_right hw]
    cases hdir : here.dirAt e with
    | some ns =>
      refine .inl ⟨.inl rfl, ?_⟩
      have hopen := openAppend_thrown here he (.inr (by rw [hdir]; rfl))
      simp only [Option.isSome_some, Bool.or_true, bind, Except.bind, Bool.true_eq_false,
        if_false, hopen]
    | none =>
      have hno : ¬(none : Option (List Text)).isSome = true := Bool.false_ne_true
      rw [or_iff_right hno]
      cases hfile : here.files e with
      | some c =>
        refine .inr ⟨fun h ↦ (nomatch h.1), here, ?_, wrote_self hfile hdir hw'⟩
        have hopen : here.openAppend e = .ok (here, e) := by
          rw [openAppend_plain he, hw', hdir, hfile]
          rfl
        simp only [Option.isSome_some, Bool.true_or, bind, Except.bind, Bool.true_eq_false,
          if_false, hopen]
      | none =>
        by_cases hsep : 47 ∉ e ∧ 92 ∉ e
        · refine .inl ⟨⟨rfl, hsep⟩, ?_⟩
          have hmk : here.fs_mkfile e = .error .thrown := if_pos (.inr (.inr hsep))
          simp only [Option.isSome_none, Bool.or_self, bind, Except.bind, if_true, hmk]
        · refine .inr ⟨fun h ↦ hsep h.2, here.put e (some []), ?_, ?_⟩
          · have hmk : here.fs_mkfile e = .ok (here.put e (some [])) := by
              refine if_neg ?_
              rintro (h | h | h)
              · exact hw h
              · rw [hdir] at h
                exact nomatch h
              · exact hsep h
            have hself : (here.put e (some [])).files e = some [] := Function.update_self ..
            have hopen : (here.put e (some [])).openAppend e =
                .ok (here.put e (some []), e) := by
              have hdir' : (here.put e (some [])).dirAt e = none := hdir
              have hw'' : (here.put e (some [])).refuses e = false := hw'
              rw [openAppend_plain he, hw'', hdir', hself]
              rfl
            simp only [Option.isSome_none, Bool.or_self, bind, Except.bind, if_true, hmk, hopen]
          · exact ⟨rfl, rfl, hdir, fun _ _ ↦ rfl, hw'⟩

theorem readEntry_eq {single : Bool} {ds : Disk × Disk} {size : ℕ} (hdot : dotted p = false)
    (he : (if p = source ∧ single = true then .ok target
      else do
        let relative_path ← fs_get_relative_path p source
        return target ++ relative_path : Run Text) = .ok e) :
    readEntry source target single ds (p, size) = (do
      let (here, e) ← openTarget ds.2 e
      readBlocks p e size (size / 1024 + 1) 0 0 (ds.1, here)) := by
  rw [readEntry, if_neg (by rw [hdot]; exact Bool.false_ne_true), he, openTarget]
  simp only [bind_assoc]
  rfl

theorem read_target (here : Disk) (hp : Plain p) (he : Plain e) (hfile : IsFile there p c) :
    (there.refuses p = true ∨ Unopenable here e) ∧ (do
        let (here, e) ← openTarget here e
        readBlocks p e c.length (c.length / 1024 + 1) 0 0 (there, here)) = .error .thrown ∨
      ¬(there.refuses p = true ∨ Unopenable here e) ∧ ∃ here', (do
        let (here, e) ← openTarget here e
        readBlocks p e c.length (c.length / 1024 + 1) 0 0 (there, here)) = .ok (there, here') ∧
          Wrote here e (fetched here e c) here' := by
  rcases openTarget_cases here he with ⟨hun, h⟩ | ⟨hun, d, h, hwrote⟩
  · refine .inl ⟨.inr hun, ?_⟩
    rw [h]
    rfl
  · rw [h]
    by_cases hw : there.refuses p = true
    · refine .inl ⟨.inl hw, ?_⟩
      have hread := read_file_thrown hp (.inl hw)
      simp only [bind, Except.bind, readBlocks, hread]
    · refine .inr ⟨fun h ↦ h.elim hw hun, ?_⟩
      have hw' : there.refuses p = false := by simpa using hw
      obtain ⟨here', hrun, hwrote'⟩ := readBlocks_file (j := 0) hp hfile hw'
        (by rw [Nat.zero_mul]; exact Nat.zero_le _) rfl hwrote.files_self hwrote.dir
        (by rw [hwrote.refuses, hwrote.writable])
      rw [Nat.zero_mul, Nat.sub_zero] at hrun
      rw [Nat.zero_mul, List.drop_zero] at hwrote'
      exact ⟨here', hrun, hwrote.trans hwrote'⟩

end Blocks

/-! ## One file is got -/

section File

variable {there here : Disk} {source target : Text} {c : Content}

theorem node_list_file (n : ℕ) (hs : Plain source) (hfile : IsFile there source c) :
    node_list n there source =
      if 2147483648 ≤ c.length then .error .undefined else .ok [(source, c.length)] := by
  have hexist : there.fs_is_exist source = .ok true := by
    rw [fs_is_exist_plain hs, hfile.2]
    rfl
  have hdirectory : there.fs_is_directory source = 0 := by
    rw [fs_is_directory, hfile.1, hfile.2]
    rfl
  have hlist : there.fs_list source = [source] := if_pos hdirectory
  have hzero : ¬(0 : ℤ) = 1 := by decide
  rw [node_list, hexist]
  simp only [bind, Except.bind, Bool.true_eq_false, if_false, hdirectory, hzero, hlist,
    List.mapM_cons, List.mapM_nil, hfile.2, Option.getD_some]
  split_ifs <;> rfl

theorem fread_file_reports_iff (n : ℕ) (hs : Plain source) (ht : Plain target)
    (hfile : IsFile there source c) :
    Reports (fread n there source target here) (fun ds ↦ ds.2.files target = some c) ↔
      c.length < 2147483648 ∧
        if dotted source then here.files target = some c
        else there.refuses source = true ∨ Unopenable here target ∨
          (here.files target).getD [] = [] := by
  rw [fread, node_list_file n hs hfile]
  by_cases hbig : 2147483648 ≤ c.length
  · rw [if_pos hbig]
    exact iff_of_false id fun h ↦ absurd h.1 (Nat.not_lt.mpr hbig)
  · rw [if_neg hbig, and_iff_right (Nat.not_le.mp hbig)]
    have hrun : (Except.ok [(source, c.length)] >>= fun list ↦
        list.foldlM (readEntry source target (list.length = 1)) (there, here) : Run (Disk × Disk)) =
          readEntry source target true (there, here) (source, c.length) :=
      bind_pure (readEntry source target true (there, here) (source, c.length))
    rw [hrun]
    cases hdot : dotted source with
    | true =>
      have hpass : readEntry source target true (there, here) (source, c.length) =
          .ok (there, here) := if_pos hdot
      rw [hpass]
      exact (if_pos rfl).to_iff.symm
    | false =>
      rw [readEntry_eq hdot (if_pos ⟨rfl, rfl⟩), if_neg Bool.false_ne_true, ← or_assoc]
      rcases read_target here hs ht hfile with ⟨hfails, h⟩ | ⟨hfails, d, h, hwrote⟩
      · rw [h]
        exact iff_of_true trivial (.inl hfails)
      · rw [h, or_iff_right hfails]
        have hself := hwrote.files_self
        have hgoal : Reports (.ok (there, d)) (fun ds : Disk × Disk ↦
            ds.2.files target = some c) ↔ fetched here target c = c := by
          rw [← Option.some_inj, ← hself]
          rfl
        rw [hgoal, fetched, List.append_left_eq_self]

end File

/-! ## A directory is got -/

/-- An entry that makes the call throw: its relative path is not found, it is a directory, or a
file that cannot be opened there or here. -/
def FailsToRead (there here : Disk) (source target p : Text) : Prop :=
  source.getLast? ≠ some 47 ∨
    match there.dirAt p, there.files p with
    | some _, _ => True
    | none, none => True
    | none, some _ => there.refuses p = true ∨ Unopenable here (dest source target p)

section Directory

variable {n : ℕ} {there here here' : Disk} {source target p q : Text} {c : Content} {ns : List Text}

theorem readEntry_spec (here : Disk) (single : Bool) (hp : Below there source p)
    (hdot : dotted p = false)
    (hplain : Plain p) (hdest : Plain (dest source target p)) :
    FailsToRead there here source target p ∧
        readEntry source target single (there, here) (p, ((there.files p).getD []).length) =
          .error .thrown ∨
      ¬FailsToRead there here source target p ∧ ∃ c here', IsFile there p c ∧
        readEntry source target single (there, here) (p, ((there.files p).getD []).length) =
          .ok (there, here') ∧
        Wrote here (dest source target p) (fetched here (dest source target p) c) here' := by
  obtain ⟨u, hu, hpu⟩ := below_prefix hp
  have hne : ¬(p = source ∧ single = true) := fun h ↦ hu (by
    rw [h.1] at hpu
    exact List.append_right_eq_self.mp hpu.symm)
  by_cases hlast : source.getLast? = some 47
  · have hpath : (if p = source ∧ single = true then .ok target
        else do
          let relative_path ← fs_get_relative_path p source
          return target ++ relative_path : Run Text) = .ok (dest source target p) := by
      rw [if_neg hne, hpu, relative_path hlast, dest, List.drop_left]
      rfl
    rw [readEntry_eq hdot hpath]
    unfold FailsToRead
    rw [or_iff_right (not_not_intro hlast)]
    have hthrown : (there.dirAt p).isSome = true ∨ there.files p = none →
        (do
          let (here, e) ← openTarget here (dest source target p)
          readBlocks p e ((there.files p).getD []).length
            (((there.files p).getD []).length / 1024 + 1) 0 0 (there, here) : Run (Disk × Disk)) =
          .error .thrown := by
      intro hno
      rcases openTarget_cases here hdest with ⟨-, h⟩ | ⟨-, d, h, -⟩
      · rw [h]
        rfl
      · rw [h]
        have hread := read_file_thrown hplain (.inr hno)
        simp only [bind, Except.bind, readBlocks, hread]
    cases hdir : there.dirAt p with
    | some ns => exact .inl ⟨trivial, hthrown (.inl (by rw [hdir]; rfl))⟩
    | none =>
      cases hfile : there.files p with
      | none =>
        have h := hthrown (.inr hfile)
        rw [hfile] at h
        exact .inl ⟨trivial, h⟩
      | some c =>
        rcases read_target here hplain hdest ⟨hdir, hfile⟩ with
          ⟨hfails, h⟩ | ⟨hfails, d, h, hwrote⟩
        · exact .inl ⟨hfails, h⟩
        · exact .inr ⟨hfails, c, d, ⟨hdir, hfile⟩, h, hwrote⟩
  · refine .inl ⟨.inl hlast, ?_⟩
    rw [readEntry, if_neg (by rw [hdot]; exact Bool.false_ne_true), if_neg hne, hpu,
      relative_path_thrown hp.ne_nil hlast]
    rfl

end Directory

section Lists

variable {n : ℕ} {there here here' : Disk} {source target p q : Text} {c : Content} {ns : List Text}

theorem failsToRead_iff (hp : Below there source p) (hq : Below there source q)
    (hnot : ¬FailsToRead there here source target p) (hfile : IsFile there p c)
    (h : Wrote here (dest source target p) (fetched here (dest source target p) c) here') :
    FailsToRead there here' source target q ↔ FailsToRead there here source target q := by
  by_cases heq : q = p
  · subst heq
    refine iff_of_false ?_ hnot
    unfold FailsToRead at hnot ⊢
    rw [hfile.1, hfile.2, not_or, not_or] at hnot
    rw [hfile.1, hfile.2]
    rintro (hlast | hrefuses | hrefuses | hdir | hnone)
    · exact hnot.1 hlast
    · exact hnot.2.1 hrefuses
    · rw [h.refuses, h.writable] at hrefuses
      exact nomatch hrefuses
    · rw [h.dir] at hdir
      exact nomatch hdir
    · rw [h.files_self] at hnone
      exact nomatch hnone.1
  · unfold FailsToRead
    refine or_congr_right ?_
    cases there.dirAt q with
    | some ns => exact Iff.rfl
    | none =>
      cases there.files q with
      | none => exact Iff.rfl
      | some c' =>
        refine or_congr_right ?_
        have htrim := trim_dest_ne target hq hp heq
        have hdest : dest source target q ≠ dest source target p := fun h ↦ htrim (by rw [h])
        unfold Unopenable
        rw [h.refuses, h.files_ne hdest, h.dirs _ htrim]

/-- An entry with its size, as it is parsed. -/
def sized (there : Disk) (p : Text) : Text × ℕ := (p, ((there.files p).getD []).length)

theorem foldlM_readEntry (here : Disk) (single : Bool) {list : List Text}
    (hlist : ∀ p ∈ list, dotted p = false ∧ Below there source p ∧ Plain p ∧
      Plain (dest source target p)) :
    (∃ p ∈ list, FailsToRead there here source target p) ∧
        (list.map (sized there)).foldlM (readEntry source target single) (there, here) =
          .error .thrown ∨
      (¬∃ p ∈ list, FailsToRead there here source target p) ∧ ∃ here',
        (list.map (sized there)).foldlM (readEntry source target single) (there, here) =
          .ok (there, here') ∧
        (list.Nodup → ∀ p ∈ list, ∃ c, IsFile there p c ∧
          here'.files (dest source target p) = some (fetched here (dest source target p) c)) ∧
        ∀ q, (∀ p ∈ list, dest source target p ≠ q) → here'.files q = here.files q := by
  induction list generalizing here with
  | nil => exact .inr ⟨by simp, here, rfl, by simp, fun _ _ ↦ rfl⟩
  | cons p list ih =>
    obtain ⟨⟨hdot, hbelow, hplain, hdest⟩, htail⟩ := List.forall_mem_cons.mp hlist
    rw [List.map_cons, List.foldlM_cons]
    rcases readEntry_spec here single hbelow hdot hplain hdest with
      ⟨hfails, h⟩ | ⟨hfails, c, here₁, hc, h, hwrote⟩
    · refine .inl ⟨⟨p, List.mem_cons_self, hfails⟩, ?_⟩
      rw [sized, h]
      rfl
    · have hrun : (readEntry source target single (there, here) (sized there p) >>= fun ds ↦
          (list.map (sized there)).foldlM (readEntry source target single) ds) =
          (list.map (sized there)).foldlM (readEntry source target single) (there, here₁) := by
        rw [sized, h]
        rfl
      rw [hrun]
      have hsame : (∃ q ∈ list, FailsToRead there here₁ source target q) ↔
          ∃ q ∈ p :: list, FailsToRead there here source target q := by
        rw [List.exists_mem_cons_iff, or_iff_right hfails]
        refine exists_congr fun q ↦ and_congr_right fun hq ↦ ?_
        exact failsToRead_iff hbelow (htail q hq).2.1 hfails hc hwrote
      have hrest := ih here₁ htail
      rw [hsame] at hrest
      refine hrest.imp_right ?_
      rintro ⟨hnone, here', hrun', hfiles, hkept⟩
      refine ⟨hnone, here', hrun', fun hnodup ↦ ?_, fun q hq ↦ ?_⟩
      · obtain ⟨hnotin, hnodup⟩ := List.nodup_cons.mp hnodup
        have hapart : ∀ q ∈ list, dest source target q ≠ dest source target p := by
          intro q hq heq
          exact hnotin (dest_inj (htail q hq).2.1 hbelow heq ▸ hq)
        refine List.forall_mem_cons.mpr ⟨⟨c, hc, ?_⟩, fun q hq ↦ ?_⟩
        · rw [hkept _ hapart, hwrote.files_self]
        · obtain ⟨c', hc', hq'⟩ := hfiles hnodup q hq
          refine ⟨c', hc', ?_⟩
          rw [hq', fetched, fetched, hwrote.files_ne (hapart q hq)]
      · obtain ⟨hqp, hqlist⟩ := List.forall_mem_cons.mp hq
        rw [hkept q hqlist, hwrote.files_ne (Ne.symm hqp)]

theorem foldlM_readEntry_filter (single : Bool) (list : List Text) (ds : Disk × Disk) :
    (list.map (sized there)).foldlM (readEntry source target single) ds =
      ((list.filter fun p ↦ dotted p = false).map (sized there)).foldlM
        (readEntry source target single) ds := by
  induction list generalizing ds with
  | nil => rfl
  | cons p list ih =>
    cases hdot : dotted p with
    | true =>
      have hpass : readEntry source target single ds (sized there p) = .ok ds := if_pos hdot
      rw [List.filter_cons_of_neg (by simp [hdot]), List.map_cons, List.foldlM_cons, hpass, ← ih]
      rfl
    | false =>
      rw [List.filter_cons_of_pos (by simp [hdot]), List.map_cons, List.map_cons,
        List.foldlM_cons, List.foldlM_cons]
      congr 1
      funext ds'
      exact ih ds'

theorem mapM_sizes (list : List Text) :
    (list.mapM fun p ↦
      let size := ((there.files p).getD []).length
      if 2147483648 ≤ size then .error .undefined else .ok (p, size) : Run (List (Text × ℕ))) =
        if ∀ p ∈ list, ((there.files p).getD []).length < 2147483648 then
          .ok (list.map (sized there))
        else .error .undefined := by
  induction list with
  | nil => exact (if_pos (by simp)).symm
  | cons p list ih =>
    rw [List.mapM_cons, ih]
    simp only [List.forall_mem_cons]
    by_cases hp : ((there.files p).getD []).length < 2147483648
    · rw [if_neg (Nat.not_le.mpr hp)]
      simp only [hp, true_and]
      split_ifs <;> rfl
    · rw [if_pos (Nat.not_lt.mp hp)]
      simp only [hp, false_and, if_false]
      rfl

end Lists

section Success

variable {n : ℕ} {there here : Disk} {source target : Text} {ns : List Text}

theorem fs_tree_flat {list : List Text} (hdir : there.dirAt source = some ns)
    (hflat : ∀ p, Chosen there source p → there.dirAt p = none)
    (h : there.fs_tree n source = .ok list) : list = [] ∨ list = there.fs_list source := by
  cases n with
  | zero => exact nomatch h
  | succ n =>
    rw [fs_tree_succ] at h
    by_cases hempty : (there.fs_list source).length = 2
    · rw [if_pos hempty] at h
      exact .inl (Except.ok.inj h).symm
    · have hns : ns ≠ [] := by
        rintro rfl
        exact hempty (by rw [fs_list_dir hdir]; rfl)
      rw [if_neg hempty] at h
      cases hfold : (there.fs_list source).foldlM (there.belowStep n) [] with
      | error e =>
        rw [hfold] at h
        exact nomatch h
      | ok below =>
        rw [hfold] at h
        have hlist : below ++ there.fs_list source = list := Except.ok.inj h
        obtain ⟨-, hmem⟩ := foldlM_below hfold
        have hnil : below = [] := by
          refine List.eq_nil_iff_forall_not_mem.mpr fun q hq ↦ ?_
          rcases (hmem q).mp hq with hq | ⟨r, hr, hrdir, hrdot, -⟩
          · exact nomatch hq
          · obtain ⟨m, hm, rfl⟩ := (mem_fs_list hdir).mp hr
            rw [hflat _ ⟨.entry hdir hns hm, hrdot⟩] at hrdir
            exact nomatch hrdir
        rw [hnil, List.nil_append] at hlist
        exact .inr hlist.symm

theorem nodup_chosen {list : List Text} (hdir : there.dirAt source = some ns)
    (hflat : ∀ p, Chosen there source p → there.dirAt p = none)
    (h : there.fs_tree n source = .ok list) :
    (list.filter fun p ↦ dotted p = false).Nodup := by
  rcases fs_tree_flat hdir hflat h with rfl | rfl
  · exact List.nodup_nil
  · have hself : ¬dotted (slash source ++ [46]) = false := by
      rw [dotted_self]
      decide
    have hparent : ¬dotted (slash source ++ [46, 46]) = false := by
      rw [dotted_parent]
      decide
    rw [fs_list_dir hdir, entries, List.map_cons, List.map_cons,
      List.filter_cons_of_neg (by simpa using hself),
      List.filter_cons_of_neg (by simpa using hparent)]
    refine List.Nodup.filter _ (List.Nodup.map ?_ (there.nodup _ _ (dirs_of_dirAt hdir).2))
    exact fun a b hab ↦ List.append_cancel_left hab

theorem node_list_dir (hs : Plain source) (hdir : there.dirAt source = some ns) :
    node_list n there source = (do
      let list ← there.fs_tree n source
      if ∀ p ∈ list, ((there.files p).getD []).length < 2147483648 then
        .ok (list.map (sized there))
      else .error .undefined) := by
  have hexist : there.fs_is_exist source = .ok true := by
    rw [fs_is_exist_plain hs, hdir, Option.isSome_some, Bool.or_true]
  have hdirectory : there.fs_is_directory source = 1 := by
    rw [fs_is_directory, hdir]
    rfl
  rw [node_list, hexist]
  simp only [bind, Except.bind, Bool.true_eq_false, if_false, hdirectory, if_true]
  cases there.fs_tree n source with
  | error e => rfl
  | ok list => exact mapM_sizes list

theorem sizes_iff {list : List Text} (hmem : ∀ q, q ∈ list ↔ Listed there source q) :
    (∀ p ∈ list, ((there.files p).getD []).length < 2147483648) ↔
      ∀ p c, Listed there source p → there.files p = some c → c.length < 2147483648 := by
  constructor
  · intro h p c hp hc
    have hlt := h p ((hmem p).mpr hp)
    rwa [hc] at hlt
  · intro h p hp
    cases hc : there.files p with
    | none => exact Nat.lt_of_lt_of_le Nat.zero_lt_one (by decide)
    | some c => exact h p c ((hmem p).mp hp) hc

theorem fread_dir_reports_iff (hs : Plain source) (hdir : there.dirAt source = some ns)
    (hplain : ∀ p, Chosen there source p → Plain p ∧ Plain (dest source target p))
    (hreturns : fread n there source target here ≠ .error .endless) :
    Reports (fread n there source target here) (fun ds ↦ Delivered there source target ds.2) ↔
      (∀ p c, Listed there source p → there.files p = some c → c.length < 2147483648) ∧
        ((∃ p, Chosen there source p ∧ FailsToRead there here source target p) ∨
          ∀ p c, Below there source p → IsFile there p c →
            (Chosen there source p → (here.files (dest source target p)).getD [] = []) ∧
              (¬Chosen there source p → here.files (dest source target p) = some c)) := by
  have hlisted := node_list_dir (n := n) hs hdir
  rcases fs_tree_cases n there source with ⟨list, hlist⟩ | hlist
  · have hmem : ∀ q, q ∈ list ↔ Listed there source q := fun q ↦ mem_fs_tree hdir hlist
    rw [hlist] at hlisted
    by_cases hsizes : ∀ p ∈ list, ((there.files p).getD []).length < 2147483648
    · rw [and_iff_right ((sizes_iff hmem).mp hsizes)]
      have hrun : fread n there source target here =
          ((list.filter fun p ↦ dotted p = false).map (sized there)).foldlM
            (readEntry source target ((list.map (sized there)).length = 1)) (there, here) := by
        rw [fread, hlisted, ← foldlM_readEntry_filter]
        have hok : (Except.ok list >>= fun list ↦
            if ∀ p ∈ list, ((there.files p).getD []).length < 2147483648 then
              .ok (list.map (sized there))
            else .error .undefined : Run (List (Text × ℕ))) = .ok (list.map (sized there)) :=
          if_pos hsizes
        rw [hok]
        rfl
      have hchosen : ∀ p, p ∈ list.filter (fun p ↦ dotted p = false) ↔ Chosen there source p :=
        fun p ↦ by simp [Chosen, hmem]
      have hexists : (∃ p ∈ list.filter (fun p ↦ dotted p = false),
          FailsToRead there here source target p) ↔
          ∃ p, Chosen there source p ∧ FailsToRead there here source target p := by
        simp only [hchosen]
      have hall : ∀ p ∈ list.filter (fun p ↦ dotted p = false),
          dotted p = false ∧ Below there source p ∧ Plain p ∧ Plain (dest source target p) := by
        intro p hp
        have hp' := (hchosen p).mp hp
        exact ⟨hp'.2, hp'.1.to_below hp'.2, hplain p hp'⟩
      have hfold := foldlM_readEntry here
        (decide ((list.map (sized there)).length = 1)) hall
      rw [hexists] at hfold
      rcases hfold with ⟨hfails, h⟩ | ⟨hfails, here', h, hfiles, hkept⟩
      · rw [hrun, h]
        exact iff_of_true trivial (.inl hfails)
      · rw [hrun, h, or_iff_right hfails]
        have hflat : ∀ p, Chosen there source p → there.dirAt p = none := by
          intro p hp
          by_contra hdirp
          refine hfails ⟨p, hp, .inr ?_⟩
          obtain ⟨ns', hns'⟩ := Option.ne_none_iff_exists'.mp hdirp
          rw [hns']
          trivial
        have hgot := hfiles (nodup_chosen hdir hflat hlist)
        refine forall_congr' fun p ↦ forall_congr' fun c ↦ forall_congr' fun hp ↦
          forall_congr' fun hc ↦ ?_
        by_cases hp' : Chosen there source p
        · obtain ⟨c', hc', hdest⟩ := hgot p ((hchosen p).mpr hp')
          obtain rfl := isFile_unique hc hc'
          rw [hdest, Option.some_inj, fetched, List.append_left_eq_self]
          exact ⟨fun hnil ↦ ⟨fun _ ↦ hnil, fun hno ↦ absurd hp' hno⟩, fun hboth ↦ hboth.1 hp'⟩
        · have hother : ∀ q ∈ list.filter (fun p ↦ dotted p = false),
              dest source target q ≠ dest source target p := by
            intro q hq heq
            exact hp' (dest_inj (hall q hq).2.1 hp heq ▸ (hchosen q).mp hq)
          rw [hkept _ hother]
          exact ⟨fun hsame ↦ ⟨fun hyes ↦ absurd hyes hp', fun _ ↦ hsame⟩, fun hboth ↦ hboth.2 hp'⟩
    · have hrun : fread n there source target here = .error .undefined := by
        have hbad : (Except.ok list >>= fun list ↦
            if ∀ p ∈ list, ((there.files p).getD []).length < 2147483648 then
              .ok (list.map (sized there))
            else .error .undefined : Run (List (Text × ℕ))) = .error .undefined :=
          if_neg hsizes
        rw [fread, hlisted, hbad]
        rfl
      rw [hrun]
      exact iff_of_false id fun h ↦ hsizes ((sizes_iff hmem).mpr h.1)
  · rw [hlist] at hlisted
    refine absurd ?_ hreturns
    rw [fread, hlisted]
    rfl

end Success

/-! ## All transfers -/

/-- A file and a directory with another one. -/
def shelf : Disk where
  home := ascii "/root"
  files p := if p = ascii "/f" then some [1] else if p = ascii "/d/a" then some [2] else none
  dirs p := if p = ascii "/d" then some [ascii "a"] else none
  refuses _ := false
  names p ns h := by
    split_ifs at h
    cases h
    decide
  nodup p ns h := by
    split_ifs at h
    cases h
    exact List.nodup_singleton _

theorem names_none (_ : Text) (ns : List Text) (h : none = some ns) :
    ∀ n ∈ ns, n ≠ [] ∧ 47 ∉ n :=
  absurd h.symm (Option.some_ne_none ns)

theorem nodup_none (_ : Text) (ns : List Text) (h : none = some ns) : ns.Nodup :=
  absurd h.symm (Option.some_ne_none ns)

/-- Nothing but a file that has been got before. -/
def desk : Disk where
  home := ascii "/root"
  files p := if p = ascii "/g" then some [1] else none
  dirs _ := none
  refuses _ := false
  names := names_none
  nodup := nodup_none

theorem shelf_chosen {p : Text} (h : Chosen shelf (ascii "/d/") p) :
    p ∈ [ascii "/d/.", ascii "/d/..", ascii "/d/a"] := by
  have hdir : shelf.dirAt (ascii "/d/") = some [ascii "a"] := by decide
  have htree : shelf.fs_tree 1 (ascii "/d/") =
      .ok [ascii "/d/.", ascii "/d/..", ascii "/d/a"] := by
    decide
  exact (mem_fs_tree hdir htree).mpr h.1

theorem shelf_plain (p : Text) (h : Chosen shelf (ascii "/d/") p) :
    Plain p ∧ Plain (dest (ascii "/d/") (ascii "/e/") p) := by
  have hall : ∀ p ∈ [ascii "/d/.", ascii "/d/..", ascii "/d/a"],
      Plain p ∧ Plain (dest (ascii "/d/") (ascii "/e/") p) := by
    decide
  exact hall p (shelf_chosen h)

theorem shelf_below {p : Text} {c : Content} (h : Below shelf (ascii "/d/") p)
    (hc : IsFile shelf p c) : Chosen shelf (ascii "/d/") p ∧ p = ascii "/d/a" ∧ c = [2] := by
  have hfile : (if p = ascii "/f" then some [1]
      else if p = ascii "/d/a" then some [2] else none) = some c := hc.2
  split_ifs at hfile with hf ha
  · obtain ⟨u, -, hu⟩ := below_prefix h
    have hhead := congrArg (List.take 2) (hf.symm.trans hu)
    rw [List.take_append_of_le_length (by decide)] at hhead
    exact absurd hhead (by decide)
  · refine ⟨⟨?_, ?_⟩, ha, (Option.some.inj hfile).symm⟩
    · have hdir : shelf.dirAt (ascii "/d/") = some [ascii "a"] := by decide
      have hentry : Listed shelf (ascii "/d/") (slash (ascii "/d/") ++ ascii "a") :=
        .entry hdir (List.cons_ne_nil _ _) (by decide)
      have hpath : slash (ascii "/d/") ++ ascii "a" = ascii "/d/a" := by decide
      rw [ha, ← hpath]
      exact hentry
    · rw [ha]
      decide

theorem isFile_shelf : IsFile shelf (ascii "/f") [1] :=
  ⟨by decide, by decide⟩

def isEndless {α : Type} : Run α → Bool
  | .error .endless => true
  | _ => false

theorem ne_endless {α : Type} {r : Run α} (h : isEndless r = false) : r ≠ .error .endless := by
  rintro rfl
  exact nomatch h

end Libobject.Transfer
