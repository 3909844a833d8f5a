import Libobject.Archive.Tar
import Libobject.Lib.Machine

/-!
# Whether a listing and an extraction come to an end

The loop of the listing goes from header to header, as far as the sizes in them tell, until it meets
one that starts with a zero. A read behind the end of the file leaves the header of the entry before
in the buffer. The loop of an extraction counts the size of the entry down, whatever is read.
-/

namespace Libobject.Tar

open FileSystem

section List

/-- The loop of `__list`, before a header is read. -/
structure Listing where
  a : File
  buf : List UInt8
  offset : ℤ
  infos : List Info

/-- What a header that was read at `offset` lists, and where the next one is. -/
def entry (offset : ℤ) (buf : List UInt8) : Option (Info × ℤ) := do
  let size ← readSize (buf.drop 124) 0
  let next ← nextOffset buf[156]? offset size
  if 0 ∈ buf then some (⟨Scan.cString buf, size, offset⟩, next) else none

/-- A turn of the loop. A size or an offset that no C integer holds is undefined, and so is a field
that does not end in the buffer. -/
def turn (s : Listing) : Move Listing (List Info × File) :=
  let (buf, a) := readBuf (s.a.seek s.offset .set) s.buf
  if buf.head? = some 0 then .done (s.infos, a)
  else
    match entry s.offset buf with
    | none => .wild
    | some (info, next) => .next ⟨a.seek info.size .cur, buf, next, s.infos ++ [info]⟩

def listing (bytes : List UInt8) : Listing := ⟨⟨bytes, 0⟩, zeros 512, 0, []⟩

/-- The next header is looked for behind the one that was read. -/
def Forward (s t : Listing) : Prop := s.offset < t.offset

/-- The listing ends, and on the way it never goes back or stays where it is. -/
def ListsWell (bytes : List UInt8) : Prop :=
  Machine.Ends turn (listing bytes) ∧ Machine.Always turn Forward (listing bytes)

/-- The bytes have a whole header at `o` that does not start with a zero, and it leads on to `n`. -/
def Leads (bytes : List UInt8) (o n : ℕ) : Prop :=
  o + 512 ≤ bytes.length ∧ bytes[o]? ≠ some 0 ∧
    (entry o ((bytes.drop o).take 512)).map Prod.snd = some (n : ℤ) ∧ o < n

/-- From `o` on, whole headers lead to a zero. -/
inductive Ended (bytes : List UInt8) : ℕ → Prop
  | zero {o : ℕ} (h : bytes[o]? = some 0) : Ended bytes o
  | entry {o n : ℕ} (h : Leads bytes o n) (hn : Ended bytes n) : Ended bytes o

/-- The loop is about to read at `o`. -/
structure Listing.At (bytes : List UInt8) (o : ℕ) (s : Listing) : Prop where
  bytes_eq : s.a.bytes = bytes
  offset_eq : s.offset = o
  length_buf : s.buf.length = 512

variable {bytes : List UInt8} {s t : Listing} {o n : ℕ}

theorem at_listing (bytes : List UInt8) : (listing bytes).At bytes 0 :=
  ⟨rfl, rfl, length_zeros 512⟩

theorem bytes_seek (f : File) (offset : ℤ) (whence : File.Whence) :
    (f.seek offset whence).bytes = f.bytes := by
  dsimp only [File.seek]
  exact (apply_ite File.bytes _ _ _).trans (ite_self _)

theorem Listing.At.readBuf_eq (hs : s.At bytes o) :
    readBuf (s.a.seek s.offset .set) s.buf =
      ((bytes.drop o).take 512 ++ s.buf.drop ((bytes.drop o).take 512).length,
        ⟨bytes, o + ((bytes.drop o).take 512).length⟩) := by
  rw [hs.offset_eq, File.seek_set, readBuf, File.read, hs.bytes_eq]

theorem length_over {bs buf : List UInt8} (h : bs.length ≤ buf.length) :
    (bs ++ buf.drop bs.length).length = buf.length := by
  rw [List.length_append, List.length_drop]
  omega

/-- The buffer after the read. -/
def Listing.header (bytes : List UInt8) (o : ℕ) (s : Listing) : List UInt8 :=
  (bytes.drop o).take 512 ++ s.buf.drop ((bytes.drop o).take 512).length

theorem Listing.At.length_header (hs : s.At bytes o) : (s.header bytes o).length = 512 := by
  have hle : ((bytes.drop o).take 512).length ≤ s.buf.length := by
    rw [hs.length_buf]
    exact List.length_take_le _ _
  exact (length_over hle).trans hs.length_buf

theorem Listing.head?_header (s : Listing) (h : o < bytes.length) :
    (s.header bytes o).head? = bytes[o]? := by
  have hread : ((bytes.drop o).take 512).head? = bytes[o]? := by
    rw [List.head?_take, if_neg (by decide), List.head?_drop]
  rw [header, List.head?_append, hread, List.getElem?_eq_getElem h]
  rfl

theorem Listing.At.header_of_whole (hs : s.At bytes o) (h : o + 512 ≤ bytes.length) :
    s.header bytes o = (bytes.drop o).take 512 := by
  have hlen : ((bytes.drop o).take 512).length = s.buf.length := by
    rw [hs.length_buf, List.length_take, List.length_drop]
    omega
  rw [header, hlen, List.drop_length, List.append_nil]

theorem Listing.header_of_end (s : Listing) (h : bytes.length ≤ o) :
    s.header bytes o = s.buf := by
  rw [header, List.drop_of_length_le h]
  rfl

theorem Listing.At.turn_eq (hs : s.At bytes o) :
    turn s =
      if (s.header bytes o).head? = some 0 then
        .done (s.infos, ⟨bytes, o + ((bytes.drop o).take 512).length⟩)
      else
        match entry o (s.header bytes o) with
        | none => .wild
        | some (info, next) =>
          .next ⟨File.seek ⟨bytes, o + ((bytes.drop o).take 512).length⟩ info.size .cur,
            s.header bytes o, next, s.infos ++ [info]⟩ := by
  rw [turn, hs.readBuf_eq, ← hs.offset_eq]
  rfl

theorem Listing.At.done (hs : s.At bytes o) (h : (s.header bytes o).head? = some 0) :
    turn s = .done (s.infos, ⟨bytes, o + ((bytes.drop o).take 512).length⟩) := by
  rw [hs.turn_eq, if_pos h]

theorem Listing.At.next (hs : s.At bytes o) (h : (s.header bytes o).head? ≠ some 0) {info : Info}
    (hentry : entry o (s.header bytes o) = some (info, (n : ℤ))) :
    ∃ t, turn s = .next t ∧ t.At bytes n ∧ t.buf = s.header bytes o := by
  have hturn := hs.turn_eq
  rw [if_neg h, hentry] at hturn
  have hbytes := bytes_seek ⟨bytes, o + ((bytes.drop o).take 512).length⟩ info.size .cur
  exact ⟨_, hturn, ⟨hbytes, rfl, hs.length_header⟩, rfl⟩

theorem Listing.At.next_cases (hs : s.At bytes o) (hturn : turn s = .next t) :
    (s.header bytes o).head? ≠ some 0 ∧
      (∃ info, entry o (s.header bytes o) = some (info, t.offset)) ∧
      t.a.bytes = bytes ∧ t.buf = s.header bytes o := by
  rw [hs.turn_eq] at hturn
  split at hturn
  · cases hturn
  · rename_i hhead
    split at hturn
    · cases hturn
    · rename_i info next hentry
      cases hturn
      have hbytes := bytes_seek ⟨bytes, o + ((bytes.drop o).take 512).length⟩ info.size .cur
      exact ⟨hhead, ⟨info, hentry⟩, hbytes, rfl⟩

theorem add_le_of_nextOffset {typeflag : Option UInt8} {offset size next : ℤ}
    (h : nextOffset typeflag offset size = some next) (hlt : offset < next) :
    offset + 512 ≤ next := by
  have hint {v w : ℤ} (hv : int v = some w) : v = w := by
    rw [int] at hv
    split at hv
    · exact Option.some.inj hv
    · cases hv
  rw [nextOffset] at h
  split at h
  · rw [hint h]
  · obtain ⟨up, -, hup⟩ := Option.bind_eq_some_iff.1 h
    have hnext := hint hup
    generalize up.tdiv 512 = q at hnext
    omega

theorem entry_next {buf : List UInt8} {offset next : ℤ} {info : Info}
    (h : entry offset buf = some (info, next)) :
    ∃ size, nextOffset buf[156]? offset size = some next := by
  obtain ⟨size, -, hsize⟩ := Option.bind_eq_some_iff.1 h
  obtain ⟨next', hnext, hlast⟩ := Option.bind_eq_some_iff.1 hsize
  split at hlast
  · cases hlast
    exact ⟨size, hnext⟩
  · cases hlast

theorem Listing.At.forward (hs : s.At bytes o) (hturn : turn s = .next t) (hlt : Forward s t) :
    ∃ n, t.At bytes n ∧ o + 512 ≤ n := by
  obtain ⟨-, ⟨info, hentry⟩, hbytes, hbuf⟩ := hs.next_cases hturn
  obtain ⟨size, hnext⟩ := entry_next hentry
  rw [Forward, hs.offset_eq] at hlt
  have hle := add_le_of_nextOffset hnext hlt
  refine ⟨t.offset.toNat, ⟨hbytes, by omega, ?_⟩, by omega⟩
  rw [hbuf]
  exact hs.length_header

theorem Listing.At.not_ends (hs : s.At bytes o) (hend : bytes.length ≤ o)
    (hhead : s.buf.head? ≠ some 0) (hforward : Machine.Always turn Forward s) :
    ¬Machine.Ends turn s := by
  let Stale (s : Listing) : Prop := ∃ o, s.At bytes o ∧ bytes.length ≤ o ∧
    s.buf.head? ≠ some 0 ∧ Machine.Always turn Forward s
  have hdone (s : Listing) (r : List Info × File) (h : Stale s) : turn s ≠ .done r := by
    obtain ⟨o, hs, hend, hhead, -⟩ := h
    rw [hs.turn_eq, s.header_of_end hend, if_neg hhead]
    split
    · exact nofun
    · exact nofun
  have hnext (s t : Listing) (h : Stale s) (hturn : turn s = .next t) : Stale t := by
    obtain ⟨o, hs, hend, hhead, hforward⟩ := h
    obtain ⟨hlt, ht⟩ := (Machine.always_iff_of_next hturn).1 hforward
    obtain ⟨n, hn, hle⟩ := hs.forward hturn hlt
    obtain ⟨-, -, -, hbuf⟩ := hs.next_cases hturn
    refine ⟨n, hn, by omega, ?_, ht⟩
    rwa [hbuf, s.header_of_end hend]
  exact Machine.not_ends_of_invariant hdone hnext ⟨o, hs, hend, hhead, hforward⟩

theorem Ended.lists (h : Ended bytes o) (hs : s.At bytes o) :
    Machine.Ends turn s ∧ Machine.Always turn Forward s := by
  induction h generalizing s with
  | zero h =>
    rename_i o
    have hlt : o < bytes.length := (List.getElem?_eq_some_iff.1 h).1
    have hdone := hs.done ((s.head?_header hlt).trans h)
    exact ⟨Machine.ends_of_done hdone, Machine.always_of_done hdone⟩
  | entry h _ ih =>
    obtain ⟨hwhole, hhead, hentry, hlt⟩ := h
    rw [← s.head?_header (by omega)] at hhead
    rw [← hs.header_of_whole hwhole] at hentry
    obtain ⟨⟨info, next⟩, hentry, rfl⟩ := Option.map_eq_some_iff.1 hentry
    obtain ⟨t, hturn, ht, -⟩ := hs.next hhead hentry
    obtain ⟨hends, hforward⟩ := ih ht
    have hfirst : Forward s t := by
      rw [Forward, hs.offset_eq, ht.offset_eq]
      exact Int.ofNat_lt.2 hlt
    exact ⟨(Machine.ends_iff_of_next hturn).2 hends,
      (Machine.always_iff_of_next hturn).2 ⟨hfirst, hforward⟩⟩

theorem ended_of_lists (hs : s.At bytes o) (hlt : o < bytes.length)
    (hends : Machine.Ends turn s) (hforward : Machine.Always turn Forward s) : Ended bytes o := by
  obtain ⟨k, r, hk⟩ := hends
  induction k generalizing s o with
  | zero => cases hk
  | succ k ih =>
    cases hturn : turn s with
    | wild =>
      rw [Machine.after, hturn] at hk
      cases hk
    | done r' =>
      refine .zero ?_
      rw [← s.head?_header hlt]
      by_contra hhead
      rw [hs.turn_eq, if_neg hhead] at hturn
      split at hturn <;> cases hturn
    | next t =>
      rw [Machine.after_succ_of_next hturn] at hk
      obtain ⟨hfirst, ht⟩ := (Machine.always_iff_of_next hturn).1 hforward
      obtain ⟨n, hn, hle⟩ := hs.forward hturn hfirst
      obtain ⟨hhead, ⟨info, hentry⟩, -, hbuf⟩ := hs.next_cases hturn
      -- behind the end the loop would go on with this header
      have hin : n < bytes.length := by
        by_contra hnot
        exact hn.not_ends (Nat.le_of_not_lt hnot) (hbuf ▸ hhead) ht ⟨k, r, hk⟩
      have hwhole : o + 512 ≤ bytes.length := by omega
      rw [s.head?_header hlt] at hhead
      rw [hs.header_of_whole hwhole, hn.offset_eq] at hentry
      exact .entry ⟨hwhole, hhead, Option.map_eq_some_iff.2 ⟨_, hentry, rfl⟩, by omega⟩
        (ih hn hin ht hk)

theorem listsWell_iff : ListsWell bytes ↔ bytes = [] ∨ Ended bytes 0 := by
  have hat := at_listing bytes
  constructor
  · rintro ⟨hends, hforward⟩
    by_cases hnil : bytes = []
    · exact .inl hnil
    · exact .inr (ended_of_lists hat (List.length_pos_of_ne_nil hnil) hends hforward)
  · rintro (rfl | hended)
    · have hdone := hat.done (by decide)
      exact ⟨Machine.ends_of_done hdone, Machine.always_of_done hdone⟩
    · exact hended.lists hat

theorem after_turn (k : ℕ) (s : Listing) (r : List Info × File) :
    Machine.after turn k s = .done r ↔
      ∃ infos, listFrom k s.a s.buf s.offset = some (infos, r.2) ∧ r.1 = s.infos ++ infos := by
  induction k generalizing s with
  | zero =>
    constructor
    · exact nofun
    · rintro ⟨infos, h, -⟩
      cases h
  | succ k ih =>
    obtain ⟨a, buf, offset, infos⟩ := s
    rw [Machine.after, turn, listFrom]
    dsimp only
    by_cases hhead : (readBuf (a.seek offset .set) buf).1.head? = some 0
    · rw [if_pos hhead, if_pos hhead]
      simp [Prod.ext_iff, eq_comm, and_comm]
    · rw [if_neg hhead, if_neg hhead]
      dsimp only [entry]
      generalize hsize : readSize _ _ = size
      cases size with
      | none => simp
      | some size =>
        simp only [Option.bind_eq_bind, Option.bind_some]
        generalize hnext : nextOffset _ _ _ = next
        cases next with
        | none => simp
        | some next =>
          simp only [Option.bind_some]
          split_ifs with hmem
          · simp only [ih, Option.bind_eq_some_iff, List.append_assoc]
            constructor
            · rintro ⟨rest, hrest, heq⟩
              exact ⟨_, ⟨(rest, r.2), hrest, rfl⟩, heq⟩
            · rintro ⟨all, ⟨⟨rest, a'⟩, hrest, hall⟩, heq⟩
              cases hall
              exact ⟨rest, hrest, heq⟩
          · simp

theorem ends_turn_iff :
    Machine.Ends turn (listing bytes) ↔ ∃ k, (listFrom k ⟨bytes, 0⟩ (zeros 512) 0).isSome := by
  constructor
  · rintro ⟨k, r, hk⟩
    obtain ⟨infos, h, -⟩ := (after_turn k _ r).1 hk
    exact ⟨k, Option.isSome_iff_exists.2 ⟨_, h⟩⟩
  · rintro ⟨k, hk⟩
    obtain ⟨⟨infos, a⟩, h⟩ := Option.isSome_iff_exists.1 hk
    exact ⟨k, (infos, a), (after_turn k _ (infos, a)).2 ⟨infos, h, rfl⟩⟩

end List

section Extract

/-- The loop of `__extract_file` that copies the content. -/
structure Copying where
  len : ℤ
  a : File
  buf : List UInt8
  content : List UInt8

/-- What is read comes over what the buffer holds, and the whole piece is written. A negative length
is taken as a number of bytes that does not fit the buffer. -/
def copyTurn (s : Copying) : Move Copying (List UInt8 × File) :=
  if s.len = 0 then .done (s.content, s.a)
  else if s.len < 0 then .wild
  else
    let read_len := min 512 s.len.toNat
    let (bs, a) := s.a.read read_len
    let buf := bs ++ s.buf.drop bs.length
    let a := if read_len < 512 then a.seek (512 - read_len : ℕ) .cur else a
    .next ⟨s.len - read_len, a, buf, s.content ++ buf.take read_len⟩

/-- A turn gets all that it takes from the buffer, and the place in the archive moves on. -/
def Fresh (s t : Copying) : Prop :=
  (s.a.read (min 512 s.len.toNat)).1.length = min 512 s.len.toNat ∧ s.a.pos ≤ t.a.pos

/-- The copying ends, without a turn over what was read before. -/
def Copying.Well (s : Copying) : Prop :=
  Machine.Ends copyTurn s ∧ Machine.Always copyTurn Fresh s

/-- The path is found and, where there is a content, its copying ends so. -/
def ExtractsWell (ar : Archive) (extracting_path : Text) (sys : System) (offset : ℤ) : Prop :=
  ∃ s, extract_start ar extracting_path sys offset = some s ∧
    ∀ path len, s.2.2 = .file path len → Copying.Well ⟨len, s.1.file, s.2.1, []⟩

/-- The header at `o`, filled up with zeros behind the end of the file. -/
def headerAt (bytes : List UInt8) (o : ℕ) : List UInt8 :=
  (bytes.drop o).take 512 ++ zeros (512 - ((bytes.drop o).take 512).length)

/-- The header at `o` has a size and ends its name, and a string takes its path. It is a directory
that can be looked for, or a file whose path fits its buffers, whose directory can be looked for,
and which cannot be opened or has its content in the archive. -/
def Extractable (ar : Archive) (extracting_path : Text) (sys : System) (o : ℕ) : Prop :=
  ∃ len, readSize ((headerAt ar.file.bytes o).drop 124) 0 = some len ∧
    0 ∈ headerAt ar.file.bytes o ∧
      ∃ s ∈ joined ar.file_name extracting_path (Scan.cString (headerAt ar.file.bytes o)),
        if (headerAt ar.file.bytes o)[156]? = some 53 then
          sys.Makes (Scan.cString (headerAt ar.file.bytes o))
        else
          (Scan.cString s.value).length < 512 ∧
            sys.Provides (fs_get_path_and_name (Scan.cString s.value)) ∧
              ∃ e, sys.disk.expand 1024 (Scan.cString s.value) = .ok e ∧
                (sys.opens e = false ∨ len = 0 ∨ 0 < len ∧ o + 512 + len ≤ ar.file.bytes.length)

variable {bytes : List UInt8} {s : Copying}

theorem Copying.turn_of_pos (hlen : 0 < s.len) :
    ∃ t, copyTurn s = .next t ∧ t.len = s.len - (min 512 s.len.toNat : ℕ) ∧
      t.a.bytes = s.a.bytes ∧
      t.a.pos = s.a.pos + (s.a.read (min 512 s.len.toNat)).1.length +
        (512 - min 512 s.len.toNat) := by
  rw [copyTurn, if_neg hlen.ne', if_neg (Int.not_lt.2 hlen.le)]
  refine ⟨_, rfl, rfl, ?_, ?_⟩
  · dsimp only
    split_ifs with hlast
    · exact bytes_seek _ _ _
    · rfl
  · dsimp only
    split_ifs with hlast
    · rw [File.seek_cur]
      rfl
    · rw [Nat.sub_eq_zero_of_le (Nat.le_of_not_lt hlast)]
      rfl

theorem length_read (f : File) (n : ℕ) : (f.read n).1.length = min n (f.bytes.length - f.pos) := by
  rw [File.read, List.length_take, List.length_drop]

theorem Copying.well_iff :
    s.Well ↔ s.len = 0 ∨ 0 < s.len ∧ s.a.pos + s.len ≤ s.a.bytes.length := by
  generalize hn : s.len.toNat = n
  induction n using Nat.strong_induction_on generalizing s with
  | h n ih =>
    rcases lt_trichotomy s.len 0 with hneg | hzero | hpos
    · have hwild : copyTurn s = .wild := by
        rw [copyTurn, if_neg hneg.ne, if_pos hneg]
      constructor
      · rintro ⟨hends, -⟩
        exact absurd hends (Machine.not_ends_of_wild hwild)
      · omega
    · have hdone : copyTurn s = .done (s.content, s.a) := if_pos hzero
      simp only [hzero, true_or, iff_true]
      exact ⟨Machine.ends_of_done hdone, Machine.always_of_done hdone⟩
    · obtain ⟨t, hturn, hlen, hbytes, hpos'⟩ := turn_of_pos hpos
      have hread := length_read s.a (min 512 s.len.toNat)
      have ht : t.Well ↔ t.len = 0 ∨ 0 < t.len ∧ t.a.pos + t.len ≤ t.a.bytes.length :=
        ih t.len.toNat (by omega) rfl
      have hfresh : Fresh s t ↔ s.a.pos + min 512 s.len.toNat ≤ s.a.bytes.length := by
        rw [Fresh, hpos', hread]
        omega
      rw [Well, Machine.ends_iff_of_next hturn, Machine.always_iff_of_next hturn, hfresh,
        and_left_comm, ← Well, ht, hpos', hbytes, hlen, hread]
      omega

theorem readBuf_extract (a : File) (offset : ℤ) :
    readBuf ((a.seek 0 .set).seek offset .cur) (zeros 512) =
      (headerAt a.bytes offset.toNat,
        ⟨a.bytes, offset.toNat + ((a.bytes.drop offset.toNat).take 512).length⟩) := by
  have hseek : (a.seek 0 .set).seek offset .cur = ⟨a.bytes, offset.toNat⟩ := by
    have hset : a.seek 0 .set = ⟨a.bytes, 0⟩ := File.seek_set a 0
    rw [hset]
    dsimp only [File.seek]
    split_ifs with hneg
    · rw [Int.toNat_of_nonpos (by omega)]
    · rw [Nat.cast_zero, zero_add]
  have hzeros (n : ℕ) : (zeros 512).drop n = zeros (512 - n) := List.drop_replicate
  rw [hseek, readBuf, File.read]
  dsimp only
  rw [hzeros]
  rfl

variable {ar : Archive} {extracting_path : Text} {sys : System} {offset : ℤ}

theorem opening_iff {path : Text} {opened : Bool} : opening sys path = some opened ↔
    path.length < 512 ∧ sys.Provides (fs_get_path_and_name path) ∧
      ∃ e, sys.disk.expand 1024 path = .ok e ∧ sys.opens e = opened := by
  rw [opening, ← System.provide_isSome_iff]
  split_ifs with hlong
  · exact iff_of_false nofun fun h ↦ absurd h.1 (Nat.not_lt.mpr hlong)
  · rw [and_iff_right (Nat.lt_of_not_le hlong)]
    cases (sys.provide (fs_get_path_and_name path)).toOption with
    | none => simp
    | some made => cases sys.disk.expand 1024 path <;> simp [Except.toOption]

theorem extractsWell_iff :
    ExtractsWell ar extracting_path sys offset ↔
      Extractable ar extracting_path sys offset.toNat := by
  have hread : ((ar.file.bytes.drop offset.toNat).take 512).length =
      min 512 (ar.file.bytes.length - offset.toNat) := length_read ⟨ar.file.bytes, offset.toNat⟩ 512
  rw [ExtractsWell, extract_start, readBuf_extract, Extractable]
  dsimp only
  generalize headerAt ar.file.bytes offset.toNat = header
  generalize readSize (header.drop 124) 0 = size
  generalize joined ar.file_name extracting_path (Scan.cString header) = name
  cases size with
  | none => simp
  | some len =>
    by_cases hmem : 0 ∈ header
    · cases name with
      | none => simp [hmem]
      | some name =>
        simp only [Option.bind_eq_bind, Option.bind_some, hmem, not_true_eq_false, if_false,
          Option.some.injEq, exists_eq_left', true_and, Option.mem_def]
        by_cases hdir : header[156]? = some 53
        · simp only [if_pos hdir, ← System.fs_mkdir_isSome_iff]
          cases (sys.fs_mkdir (Scan.cString header)).toOption with
          | none => simp
          | some made => simp
        · simp only [if_neg hdir]
          cases hopening : opening sys (Scan.cString name.value) with
          | none =>
            refine iff_of_false (by rintro ⟨_, h, -⟩; cases h) ?_
            rintro ⟨hshort, hprovides, e, he, -⟩
            rw [opening_iff.mpr ⟨hshort, hprovides, e, he, rfl⟩] at hopening
            cases hopening
          | some opened =>
            obtain ⟨hshort, hprovides, e, he, hopens⟩ := opening_iff.mp hopening
            rw [and_iff_right hshort, and_iff_right hprovides, he]
            simp only [Except.ok.injEq, exists_eq_left', hopens]
            cases opened with
            | false => simp
            | true =>
              simp only [hread, Option.pure_def, Option.bind_some, if_true, Option.some.injEq,
                exists_eq_left', Start.file.injEq, and_imp, forall_apply_eq_imp_iff, forall_eq',
                Copying.well_iff, Bool.true_eq_false, false_or]
              omega
    · simp [hmem]

theorem after_copyTurn (n : ℕ) {s : Copying} {len : ℕ} (hlen : s.len = len)
    (hn : n = (len + 511) / 512) :
    Machine.after copyTurn (n + 1) s =
      .done (s.content ++ (readBlocks n len s.a s.buf).1, (readBlocks n len s.a s.buf).2) := by
  induction n generalizing s len with
  | zero =>
    have hzero : s.len = 0 := by omega
    rw [Machine.after, copyTurn, if_pos hzero, readBlocks, List.append_nil]
  | succ n ih =>
    obtain ⟨len', a, buf, content⟩ := s
    dsimp only at hlen
    subst hlen
    have hpos : 0 < len := by omega
    rw [Machine.after, copyTurn, if_neg (by dsimp only; omega), if_neg (by dsimp only; omega),
      readBlocks]
    dsimp only [Int.toNat_natCast]
    rw [@ih _ (len - min 512 len) (by dsimp only; omega) (by omega), List.append_assoc]

/-- An extraction is defined if its copying ends. -/
theorem extract_file_isSome_iff (info : Info) :
    (extract_file ar extracting_path sys info).isSome ↔
      ∃ s, extract_start ar extracting_path sys info.offset = some s ∧
        ∀ path len, s.2.2 = .file path len →
          Machine.Ends copyTurn ⟨len, s.1.file, s.2.1, []⟩ := by
  rw [extract_file]
  cases extract_start ar extracting_path sys info.offset with
  | none => simp
  | some s =>
    obtain ⟨ar', buf, start⟩ := s
    cases start with
    | dir path => simp
    | refused => simp
    | file path len =>
      have hends : Machine.Ends copyTurn ⟨len, ar'.file, buf, []⟩ ↔ ¬len < 0 := by
        by_cases hneg : len < 0
        · have hwild : copyTurn ⟨len, ar'.file, buf, []⟩ = .wild := by
            rw [copyTurn, if_neg hneg.ne, if_pos hneg]
          exact iff_of_false (Machine.not_ends_of_wild hwild) (not_not_intro hneg)
        · have hlen : len = (len.toNat : ℕ) := by omega
          exact iff_of_true ⟨_, _, after_copyTurn _ hlen rfl⟩ hneg
      simp [hends]

end Extract

/-- The listing and each extraction end exactly if the headers and contents they come to are in the
file, with a zero behind the last, and the paths fit where they are copied to. -/
theorem stops_iff (ar : Archive) (extracting_path : Text) (sys : System) (offset : ℤ) :
    (ListsWell ar.file.bytes ↔ ar.file.bytes = [] ∨ Ended ar.file.bytes 0) ∧
      (ExtractsWell ar extracting_path sys offset ↔
        Extractable ar extracting_path sys offset.toNat) :=
  ⟨listsWell_iff, extractsWell_iff⟩

/-- A file that ends in its first header. -/
theorem not_stops : ¬ListsWell [97] := by
  rw [listsWell_iff]
  rintro (h | h)
  · cases h
  · cases h with
    | zero h => exact absurd h (by decide)
    | entry h _ => exact absurd h.1 (by decide)

end Libobject.Tar
