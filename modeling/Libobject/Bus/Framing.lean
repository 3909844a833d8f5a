import Libobject.Bus.Receive

/-!
# Messages on a stream

What the receive callbacks make of a sequence of messages whose bytes arrive in chunks, and exactly
when they make of it what was sent.
-/

namespace Libobject.Bus

open Blob Scan

variable {α : Type} (ep : Endpoint α)

/-- Messages and the chunks in which their bytes arrive. What is cached when a chunk arrives, the
beginning `part` of the next message, fits the ring buffer with it. -/
structure Delivery where
  msgs : List Msg
  chunks : List (List UInt8)
  wellFormed : ∀ m ∈ msgs, m.WellFormed ep
  nonempty : ∀ c ∈ chunks, c ≠ []
  bytes : chunks.flatten = stream msgs
  fits : ∀ sent rest before chunk after part, msgs = sent ++ rest →
    chunks = before ++ chunk :: after → before.flatten = stream sent ++ part →
    (∀ m ∈ rest.head?, part.length < m.bytes.length) → part.length + chunk.length ≤ BLOB_MAX_SIZE

variable {ep} {fails : List Call → Bool}

/-- Whatever memory the callbacks find, they make the intended calls and no others. -/
def Delivery.Framed (d : Delivery ep) (fails : List Call → Bool) : Prop :=
  ∀ mems : List (Memory α), mems.length = d.chunks.length →
    (receiveAll ep fails ⟨none, []⟩ (d.chunks.zip mems)).map Task.calls =
      some (d.msgs.map (Msg.intended ep))

/-- A message whose handler fails is the last one of its chunk. -/
def Delivery.FailsAtEnd (d : Delivery ep) (fails : List Call → Bool) : Prop :=
  ∀ sent rest, d.msgs = sent ++ rest → fails (sent.map (Msg.intended ep)) = true →
    ∃ before, before <+: d.chunks ∧ before.flatten = stream sent

/-! ## Bytes that no call has used up -/

def messageBytes (calls : List Call) : ℕ := (calls.map fun c ↦ c.message.length).sum

@[simp] theorem messageBytes_append (xs ys : List Call) :
    messageBytes (xs ++ ys) = messageBytes xs + messageBytes ys := by simp [messageBytes]

/-- The calls made on the way from one ring buffer to another took their bytes out of it. -/
structure Consumed (rb : RingBuffer) (calls : List Call) (rb' : RingBuffer)
    (calls' : List Call) : Prop where
  valid : rb'.Valid
  lastOperation : rb'.lastOperation ≠ .na
  size : rb'.size = rb.size
  calls : ∃ new, calls' = calls ++ new ∧
    messageBytes new + rb'.contents.length ≤ rb.contents.length

theorem Consumed.refl {rb : RingBuffer} (hrb : rb.Valid) (hop : rb.lastOperation ≠ .na)
    (calls : List Call) : Consumed rb calls rb calls :=
  ⟨hrb, hop, rfl, [], by simp, by simp [messageBytes]⟩

theorem Consumed.trans {rb rb' rb'' : RingBuffer} {calls calls' calls'' : List Call}
    (h : Consumed rb calls rb' calls') (h' : Consumed rb' calls' rb'' calls'') :
    Consumed rb calls rb'' calls'' := by
  obtain ⟨new, hcalls, hbytes⟩ := h.calls
  obtain ⟨new', hcalls', hbytes'⟩ := h'.calls
  refine ⟨h'.valid, h'.lastOperation, h'.size.trans h.size, new ++ new', ?_, ?_⟩
  · rw [hcalls', hcalls, List.append_assoc]
  · rw [messageBytes_append]
    omega

def Round.rb : Round α → RingBuffer
  | .ret _ rb _ => rb
  | .again rb _ _ => rb

def Round.calls : Round α → List Call
  | .ret _ _ calls => calls
  | .again _ _ calls => calls


theorem receiveOne_consumed {rb : RingBuffer} (hrb : rb.Valid) (hop : rb.lastOperation ≠ .na)
    {tb : α → Slot} {calls : List Call} {r : Round α}
    (h : receiveOne ep fails rb tb calls = some r) : Consumed rb calls r.rb r.calls := by
  have hread : ∀ n view, 0 < n →
      Consumed rb calls (rb.read n).2 calls ∧
      Consumed rb calls (rb.read n).2 (calls ++ [⟨(rb.read n).1, view⟩]) := by
    intro n view hn
    obtain ⟨hmsg, hvalid, hcont⟩ := RingBuffer.read_spec hrb hn
    have hop' := RingBuffer.lastOperation_read hop n
    refine ⟨⟨hvalid, hop', RingBuffer.size_read rb n, [], by simp, ?_⟩,
      ⟨hvalid, hop', RingBuffer.size_read rb n, [⟨(rb.read n).1, view⟩], rfl, ?_⟩⟩
    · simp [hcont, messageBytes]
    · simp only [messageBytes, hmsg, hcont, List.map_cons, List.map_nil, List.sum_cons,
        List.sum_nil, List.length_take, List.length_drop]
      omega
  have hpos : 0 < 10 + blobTableLen rb := by omega
  rw [receiveOne] at h
  split at h
  · cases h
    exact .refl hrb hop calls
  · split at h
    · cases h
      exact .refl hrb hop calls
    · split at h
      · cases h
        exact .refl hrb hop calls
      · rw [dispatch] at h
        split at h
        · cases h
        · split at h
          · cases h
          · split at h
            · cases h
              exact (hread _ [] hpos).1
            · dsimp only at h
              split at h
              · cases h
                exact (hread _ _ hpos).2
              · split at h <;> cases h <;> exact (hread _ _ hpos).2

theorem receiveLoop_consumed {fuel : ℕ} {rb : RingBuffer} (hrb : rb.Valid)
    (hop : rb.lastOperation ≠ .na) {tb : α → Slot} {calls calls' : List Call} {ret : ℤ}
    {rb' : RingBuffer} (h : receiveLoop ep fails fuel rb tb calls = some (ret, rb', calls')) :
    Consumed rb calls rb' calls' := by
  induction fuel generalizing rb tb calls with
  | zero => cases h
  | succ fuel ih =>
    rw [receiveLoop] at h
    split at h
    · cases h
    · next hround =>
        cases h
        exact receiveOne_consumed hrb hop hround
    · next hround =>
        have hone := receiveOne_consumed hrb hop hround
        exact hone.trans (ih hone.valid hone.lastOperation h)

/-- The bytes that the task keeps. -/
def Task.held (t : Task) : ℕ := (t.cache.map fun rb ↦ rb.contents.length).getD 0

def Task.Sound (t : Task) : Prop :=
  ∀ rb ∈ t.cache, rb.Valid ∧ rb.lastOperation ≠ .na ∧ rb.size = BLOB_MAX_SIZE

theorem Task.Holds.sound {t : Task} {part : List UInt8} (h : t.Holds part) :
    t.Sound ∧ t.held = part.length := by
  rw [Holds] at h
  rw [Sound, held]
  cases hcache : t.cache with
  | none =>
    rw [hcache] at h
    simp [h]
  | some rb =>
    rw [hcache] at h
    obtain ⟨hvalid, hop, hsize, hcont⟩ := h
    refine ⟨?_, by simp [hcont]⟩
    rintro _ ⟨⟩
    exact ⟨hvalid, hop, hsize⟩

theorem receive_consumed {t t' : Task} (ht : t.Sound) {chunk : List UInt8} {mem : Memory α}
    (h : receive ep fails t chunk mem = some t') :
    t'.Sound ∧ ∃ new, t'.calls = t.calls ++ new ∧
      messageBytes new + t'.held ≤ t.held + chunk.length := by
  rw [receive] at h
  split at h
  · cases h
    refine ⟨?_, [], by simp, ?_⟩
    · rintro _ ⟨⟩
    · simp [messageBytes, Task.held]
  · next hchunk =>
      obtain ⟨hvalid, hsize, hop, hheld⟩ :
          let rb := t.cache.getD ((RingBuffer.new mem.addr).setSize mem.buffer)
          rb.Valid ∧ rb.size = BLOB_MAX_SIZE ∧
            (rb.lastOperation ≠ .na ∨ rb.contents = []) ∧ rb.contents.length = t.held := by
        rw [Task.Sound] at ht
        rw [Task.held]
        cases hcache : t.cache with
        | none =>
          obtain ⟨hvalid, hsize, hcont⟩ := new_setSize mem
          exact ⟨hvalid, hsize, .inr hcont, by simp [hcont]⟩
        | some rb =>
          obtain ⟨hvalid, hop, hsize⟩ := ht rb hcache
          exact ⟨hvalid, hsize, .inl hop, rfl⟩
      obtain ⟨hvalid', hsize', hop', hlen⟩ := RingBuffer.write_le hvalid hchunk hop
      dsimp only at h
      split at h
      · cases h
      · next ret rb calls hloop =>
          have hconsumed := receiveLoop_consumed hvalid' hop' hloop
          obtain ⟨new, hcalls, hbytes⟩ := hconsumed.calls
          cases h
          split
          · refine ⟨?_, new, hcalls, ?_⟩
            · rintro _ ⟨⟩
            · change messageBytes new + 0 ≤ t.held + chunk.length
              omega
          · refine ⟨?_, new, hcalls, ?_⟩
            · rintro _ ⟨⟩
              exact ⟨hconsumed.valid, hconsumed.lastOperation,
                hconsumed.size.trans (hsize'.trans hsize)⟩
            · change messageBytes new + rb.contents.length ≤ t.held + chunk.length
              omega

theorem receiveAll_consumed {inputs : List (List UInt8 × Memory α)} {t t' : Task} (ht : t.Sound)
    (h : receiveAll ep fails t inputs = some t') :
    ∃ new, t'.calls = t.calls ++ new ∧
      messageBytes new ≤ t.held + (inputs.map Prod.fst).flatten.length := by
  induction inputs generalizing t with
  | nil =>
    cases h
    exact ⟨[], by simp, by simp [messageBytes]⟩
  | cons input inputs ih =>
    obtain ⟨chunk, mem⟩ := input
    rw [receiveAll, Option.bind_eq_some_iff] at h
    obtain ⟨t₁, hone, hrest⟩ := h
    obtain ⟨hsound, new, hcalls, hbytes⟩ := receive_consumed ht hone
    obtain ⟨new', hcalls', hbytes'⟩ := ih hsound hrest
    refine ⟨new ++ new', by rw [hcalls', hcalls, List.append_assoc], ?_⟩
    rw [messageBytes_append, List.map_cons, List.flatten_cons, List.length_append]
    change _ ≤ t.held + (chunk.length + _)
    omega

/-! ## All chunks -/

theorem Views.eq_intended {tb : α → Slot} {ms : List Msg} {new : List Call}
    (h : Views ep tb ms new) (hself : ∀ m ∈ ms, m.SelfContained ep) :
    new = ms.map (Msg.intended ep) := by
  induction h with
  | nil => rfl
  | cons hone hrest ih =>
    obtain ⟨tb', -, rfl⟩ := hone
    rw [List.map_cons, (hself _ List.mem_cons_self).call_eq tb',
      ih fun m hm ↦ hself m (List.mem_cons_of_mem _ hm)]

theorem Views.selfContained {tb : α → Slot} {ms : List Msg} {new : List Call}
    (h : Views ep tb ms new) (htb : Full tb) (hms : ∀ m ∈ ms, m.WellFormed ep)
    (heq : new = ms.map (Msg.intended ep)) : ∀ m ∈ ms, m.SelfContained ep := by
  induction h with
  | nil => simp
  | cons hone hrest ih =>
    obtain ⟨tb', hfull, rfl⟩ := hone
    rw [List.map_cons, List.cons.injEq] at heq
    intro x hx
    rcases List.mem_cons.mp hx with rfl | hx
    · exact Msg.selfContained_of_call_eq (hms _ List.mem_cons_self) (hfull htb) heq.1
    · exact ih (fun y hy ↦ hms y (List.mem_cons_of_mem _ hy)) heq.2 x hx

theorem Incomplete.eq_nil {part : List UInt8} {ms : List Msg} (h : Incomplete part ms)
    (hbytes : part = stream ms) : ms = [] ∧ part = [] := by
  cases ms with
  | nil => exact ⟨rfl, hbytes⟩
  | cons m ms =>
    have hlt := h m rfl
    rw [hbytes, stream_cons, List.length_append] at hlt
    omega

/-- Between two chunks of a delivery: `before` has arrived, with the messages `sent` and the
beginning `part` of the next one. -/
structure Delivery.At (d : Delivery ep) (before after : List (List UInt8)) (sent rest : List Msg)
    (part : List UInt8) : Prop where
  chunks : d.chunks = before ++ after
  msgs : d.msgs = sent ++ rest
  bytes : before.flatten = stream sent ++ part
  incomplete : Incomplete part rest

namespace Delivery.At

variable {d : Delivery ep} {before after : List (List UInt8)} {sent rest : List Msg}
  {part chunk : List UInt8}

theorem remaining (h : d.At before after sent rest part) : part ++ after.flatten = stream rest := by
  have hbytes := d.bytes
  rw [h.chunks, h.msgs, List.flatten_append, h.bytes, stream_append, List.append_assoc] at hbytes
  exact List.append_cancel_left hbytes

theorem wellFormed (h : d.At before after sent rest part) : ∀ m ∈ rest, m.WellFormed ep := by
  intro m hm
  apply d.wellFormed
  rw [h.msgs]
  exact List.mem_append_right sent hm

theorem next (h : d.At before (chunk :: after) sent rest part) {done rest' : List Msg}
    {left : List UInt8} (hsplit : rest = done ++ rest')
    (hleft : part ++ chunk = stream done ++ left)
    (hinc : Incomplete left rest') :
    d.At (before ++ [chunk]) after (sent ++ done) rest' left where
  chunks := by simp [h.chunks]
  msgs := by simp [h.msgs, hsplit]
  bytes := by simp [h.bytes, hleft, stream_append]
  incomplete := hinc

theorem receive_spec (h : d.At before (chunk :: after) sent rest part)
    (fails : List Call → Bool) {t : Task} (ht : t.Holds part) (mem : Memory α) :
    ∃ t' done rest' new left,
      Received ep fails t part chunk mem rest t' done rest' new left := by
  have hchunk : chunk ≠ [] := d.nonempty chunk (by simp [h.chunks])
  have hfits := d.fits sent rest before chunk after part h.msgs h.chunks h.bytes h.incomplete
  have hbytes : part ++ chunk ++ after.flatten = stream rest := by
    rw [List.append_assoc, ← h.remaining, List.flatten_cons]
  exact Bus.receive_spec h.wellFormed ht hchunk hfits hbytes mem

theorem left_eq_nil (h : d.At before (chunk :: after) sent rest part) {done rest' : List Msg}
    {left : List UInt8} (hsplit : rest = done ++ rest')
    (hleft : part ++ chunk = stream done ++ left)
    (hdone : done ≠ []) {pre : List (List UInt8)} (hpre : pre <+: d.chunks)
    (hflat : pre.flatten = stream (sent ++ done)) : left = [] := by
  have hlen := congrArg List.length hflat
  have hbefore := congrArg List.length h.bytes
  have hlong : part.length < (stream done).length := by
    obtain ⟨m, ms, rfl⟩ := List.exists_cons_of_ne_nil hdone
    have hlt := h.incomplete m (by simp [hsplit])
    rw [stream_cons, List.length_append]
    omega
  rw [stream_append, List.length_append] at hlen
  rw [List.length_append] at hbefore
  rcases List.prefix_or_prefix_of_prefix hpre ⟨chunk :: after, h.chunks.symm⟩ with ⟨x, hx⟩ | ⟨x, hx⟩
  · rw [← hx, List.flatten_append, List.length_append] at hbefore
    omega
  · cases x with
    | nil =>
      rw [← hx, List.append_nil] at hlen
      omega
    | cons c x =>
      have hc : c = chunk := by
        obtain ⟨y, hy⟩ := hpre
        rw [← hx, h.chunks, List.append_assoc, List.append_cancel_left_eq, List.cons_append,
          List.cons.injEq] at hy
        exact hy.1
      have hchunk := congrArg List.length hleft
      rw [← hx, hc, List.flatten_append, List.length_append, List.flatten_cons,
        List.length_append] at hlen
      rw [List.length_append, List.length_append] at hchunk
      exact List.eq_nil_of_length_eq_zero (by omega)

end Delivery.At

theorem Received.done_ne_nil {t t' : Task} {part chunk left : List UInt8} {mem : Memory α}
    {ms done rest : List Msg} {new : List Call}
    (h : Received ep fails t part chunk mem ms t' done rest new left)
    (hlast : LastFails fails t.calls new) : done ≠ [] := by
  rintro rfl
  obtain ⟨front, last, hnew, -⟩ := hlast
  have hlen := h.views.length_eq
  rw [hnew] at hlen
  simp at hlen

theorem receiveAll_of_condition {d : Delivery ep} (hself : ∀ m ∈ d.msgs, m.SelfContained ep)
    (hfail : d.FailsAtEnd fails) {before after : List (List UInt8)} {sent rest : List Msg}
    {part : List UInt8} (hat : d.At before after sent rest part) {t : Task} (ht : t.Holds part)
    (hcalls : t.calls = sent.map (Msg.intended ep)) {mems : List (Memory α)}
    (hlen : mems.length = after.length) :
    (receiveAll ep fails t (after.zip mems)).map Task.calls =
      some (d.msgs.map (Msg.intended ep)) := by
  induction after generalizing before sent rest part t mems with
  | nil =>
    have hrest := hat.remaining
    rw [List.flatten_nil, List.append_nil] at hrest
    obtain ⟨rfl, rfl⟩ := hat.incomplete.eq_nil hrest
    rw [List.zip_nil_left, receiveAll, Option.map_some, hcalls, hat.msgs, List.append_nil]
  | cons chunk after ih =>
    obtain ⟨mem, mems, rfl⟩ := List.exists_cons_of_length_eq_add_one hlen
    obtain ⟨t', done, rest', new, left, hres⟩ := hat.receive_spec fails ht mem
    have hdoneMem : ∀ m ∈ done, m.SelfContained ep := by
      intro m hm
      apply hself
      rw [hat.msgs, hres.split]
      exact List.mem_append_right _ (List.mem_append_left _ hm)
    have hnew := hres.views.eq_intended hdoneMem
    have hcalls' : t'.calls = (sent ++ done).map (Msg.intended ep) := by
      rw [hres.calls, hcalls, hnew, List.map_append]
    have hholds : Incomplete left rest' ∧ t'.Holds left := by
      rcases hres.ending with ⟨-, hinc, hholds⟩ | ⟨hlast, hholds⟩
      · exact ⟨hinc, hholds⟩
      · have hfails : fails ((sent ++ done).map (Msg.intended ep)) = true := by
          obtain ⟨front, last, -, -, hlast'⟩ := hlast
          rw [← hcalls', hres.calls]
          exact hlast'
        obtain ⟨pre, hpre, hflat⟩ :=
          hfail (sent ++ done) rest' (by rw [hat.msgs, hres.split, List.append_assoc]) hfails
        rw [hat.left_eq_nil hres.split hres.contents (hres.done_ne_nil hlast) hpre hflat]
        exact ⟨incomplete_nil rest', hholds⟩
    rw [List.zip_cons_cons, receiveAll, hres.received, Option.bind_some]
    exact ih (hat.next hres.split hres.contents hholds.1) hholds.2 hcalls' (by simpa using hlen)

theorem length_stream_eq (ms : List Msg) :
    messageBytes (ms.map (Msg.intended ep)) = (stream ms).length := by
  induction ms with
  | nil => rfl
  | cons m ms ih =>
    rw [stream_cons, List.length_append, ← ih]
    rfl

theorem condition_of_receiveAll {d : Delivery ep} {before after : List (List UInt8)}
    {sent rest : List Msg} {part : List UInt8} (hat : d.At before after sent rest part) {t : Task}
    (ht : t.Holds part) (hcalls : t.calls = sent.map (Msg.intended ep)) {mems : List (Memory α)}
    (hlen : mems.length = after.length) (hfull : ∀ mem ∈ mems, Full mem.tb)
    (hrun : (receiveAll ep fails t (after.zip mems)).map Task.calls =
      some (d.msgs.map (Msg.intended ep))) :
    (∀ m ∈ rest, m.SelfContained ep) ∧
      ∀ more rest', rest = more ++ rest' → more ≠ [] →
        fails ((sent ++ more).map (Msg.intended ep)) = true →
        ∃ pre, pre <+: d.chunks ∧ pre.flatten = stream (sent ++ more) := by
  induction after generalizing before sent rest part t mems with
  | nil =>
    have hrest := hat.remaining
    rw [List.flatten_nil, List.append_nil] at hrest
    obtain ⟨rfl, rfl⟩ := hat.incomplete.eq_nil hrest
    refine ⟨by simp, fun more rest' hsplit hmore ↦ ?_⟩
    exact (hmore (List.append_eq_nil_iff.mp hsplit.symm).1).elim
  | cons chunk after ih =>
    obtain ⟨mem, mems, rfl⟩ := List.exists_cons_of_length_eq_add_one hlen
    have hlen' : mems.length = after.length := by simpa using hlen
    obtain ⟨t', done, rest', new, left, hres⟩ := hat.receive_spec fails ht mem
    rw [List.zip_cons_cons, receiveAll, hres.received, Option.bind_some] at hrun
    obtain ⟨t'', hrest, hfinal⟩ := Option.map_eq_some_iff.mp hrun
    have hsound : t'.Sound ∧ (∀ kept, t'.Holds kept → t'.held = kept.length) := by
      rcases hres.ending with ⟨-, -, hholds⟩ | ⟨-, hholds⟩
      · exact ⟨hholds.sound.1, fun kept h ↦ h.sound.2⟩
      · exact ⟨hholds.sound.1, fun kept h ↦ h.sound.2⟩
    obtain ⟨new', hnew', hbytes⟩ := receiveAll_consumed hsound.1 hrest
    -- the calls made in this chunk are the intended ones, since calls are never taken back
    have hboth : new ++ new' = done.map (Msg.intended ep) ++ rest'.map (Msg.intended ep) := by
      rw [hfinal, hat.msgs, hres.split, hres.calls, hcalls, List.map_append, List.map_append,
        List.append_assoc] at hnew'
      exact (List.append_cancel_left hnew').symm
    obtain ⟨hnew, hnewRest⟩ := List.append_inj hboth
      (by rw [List.length_map, hres.views.length_eq])
    have hdone := hres.views.selfContained (hfull mem List.mem_cons_self)
      (fun m hm ↦ hat.wellFormed m (by simp [hres.split, hm])) hnew
    have hcalls' : t'.calls = (sent ++ done).map (Msg.intended ep) := by
      rw [hres.calls, hcalls, hnew, List.map_append]
    -- a failure that loses bytes leaves too few of them for the calls that must follow
    have hnothing : LastFails fails t.calls new → t'.Holds [] → left = [] := by
      intro hlast hholds
      have hremaining := hat.remaining
      rw [List.flatten_cons, ← List.append_assoc, hres.contents, hres.split, stream_append,
        List.append_assoc, List.append_cancel_left_eq] at hremaining
      have hshort : after.length ≤ mems.length := by omega
      have hfst := List.map_fst_zip hshort
      rw [hnewRest, length_stream_eq, hfst, hsound.2 _ hholds, ← hremaining,
        List.length_append, List.length_nil] at hbytes
      exact List.eq_nil_of_length_eq_zero (by omega)
    have hholds : Incomplete left rest' ∧ t'.Holds left := by
      rcases hres.ending with ⟨-, hinc, hholds⟩ | ⟨hlast, hholds⟩
      · exact ⟨hinc, hholds⟩
      · rw [hnothing hlast hholds]
        exact ⟨incomplete_nil rest', hholds⟩
    obtain ⟨hself, hfails⟩ := ih (hat.next hres.split hres.contents hholds.1) hholds.2 hcalls'
      hlen' (fun x hx ↦ hfull x (List.mem_cons_of_mem mem hx)) hrun
    refine ⟨fun m hm ↦ ?_, fun more rest'' hsplit hmore hfail ↦ ?_⟩
    · rw [hres.split] at hm
      exact (List.mem_append.mp hm).elim (hdone m) (hself m)
    · by_cases hlater : ∃ x, x ≠ [] ∧ more = done ++ x ∧ rest' = x ++ rest''
      · obtain ⟨x, hx, rfl, hrest'⟩ := hlater
        rw [← List.append_assoc] at hfail ⊢
        exact hfails x rest'' hrest' hx hfail
      · obtain ⟨y, hy⟩ : ∃ y, done = more ++ y := by
          rcases List.append_eq_append_iff.mp (hsplit.symm.trans hres.split) with h | h
          · obtain ⟨y, hy, -⟩ := h
            exact ⟨y, hy⟩
          · obtain ⟨x, hx, hrest'⟩ := h
            have hnil : x = [] := by
              by_contra hne
              exact hlater ⟨x, hne, hx, hrest'⟩
            exact ⟨[], by rw [hx, hnil, List.append_nil, List.append_nil]⟩
        have hpre : more.map (Msg.intended ep) <+: new :=
          ⟨y.map (Msg.intended ep), by rw [hnew, hy, List.map_append]⟩
        have hne : more.map (Msg.intended ep) ≠ [] := by simpa using hmore
        rw [List.map_append, ← hcalls] at hfail
        rcases hres.ending with ⟨hnone, -, -⟩ | ⟨hlast, hheld⟩
        · rw [hnone _ hne hpre] at hfail
          cases hfail
        · have hall := congrArg List.length (hlast.eq_of_fails hne hpre hfail)
          rw [hnew, hy, List.length_map, List.length_map, List.length_append] at hall
          have hy_nil : y = [] := List.eq_nil_of_length_eq_zero (by omega)
          rw [hy_nil, List.append_nil] at hy
          refine ⟨before ++ [chunk], ⟨after, by simp [hat.chunks]⟩, ?_⟩
          rw [← hy, (hat.next hres.split hres.contents hholds.1).bytes, hnothing hlast hheld,
            List.append_nil]

/-- The callbacks make the intended calls if and only if every message carries what its handler
looks at and every message whose handler fails is the last of its chunk. -/
theorem framed_iff (d : Delivery ep) (fails : List Call → Bool) :
    d.Framed fails ↔ (∀ m ∈ d.msgs, m.SelfContained ep) ∧ d.FailsAtEnd fails := by
  have hat : d.At [] d.chunks [] d.msgs [] := ⟨rfl, rfl, rfl, incomplete_nil d.msgs⟩
  constructor
  · intro hframed
    let mem : Memory α := ⟨[], List.replicate BLOB_MAX_SIZE 0, fun _ ↦ .dangling, by simp⟩
    have hlen : (List.replicate d.chunks.length mem).length = d.chunks.length := by simp
    have hfull : ∀ x ∈ List.replicate d.chunks.length mem, Full x.tb := by
      intro x hx a
      rw [List.eq_of_mem_replicate hx]
      simp [mem]
    obtain ⟨hself, hfails⟩ :=
      condition_of_receiveAll hat (t := ⟨none, []⟩) rfl rfl hlen hfull (hframed _ hlen)
    refine ⟨hself, fun sent rest hsplit hfail ↦ ?_⟩
    by_cases hsent : sent = []
    · exact ⟨[], List.nil_prefix, by rw [hsent]; rfl⟩
    · exact hfails sent rest hsplit hsent hfail
  · rintro ⟨hself, hfail⟩ mems hlen
    exact receiveAll_of_condition hself hfail hat (t := ⟨none, []⟩) rfl rfl hlen

/-! ## The bus and its daemon -/

theorem fits_of_total {msgs : List Msg} {chunks : List (List UInt8)}
    (h : chunks.flatten.length ≤ BLOB_MAX_SIZE) (sent rest : List Msg)
    (before : List (List UInt8)) (chunk : List UInt8) (after : List (List UInt8))
    (part : List UInt8) (_ : msgs = sent ++ rest) (hchunks : chunks = before ++ chunk :: after)
    (hbytes : before.flatten = stream sent ++ part)
    (_ : ∀ m ∈ rest.head?, part.length < m.bytes.length) :
    part.length + chunk.length ≤ BLOB_MAX_SIZE := by
  rw [hchunks, List.flatten_append, List.length_append, hbytes, List.length_append,
    List.flatten_cons, List.length_append] at h
  omega

inductive BusAttrib
  | objid
  | objinfos
  | state
  | payload
  | invokeSrcFd
  | invokeDstFd
  | invokeMethod
  | invokeArgc
  | invokeArgs
  | time

def busAttribs : BusAttrib → Text
  | .objid => ascii "object_id"
  | .objinfos => ascii "object_infos"
  | .state => ascii "state"
  | .payload => ascii "opaque"
  | .invokeSrcFd => ascii "source_fd"
  | .invokeDstFd => ascii "destination_fd"
  | .invokeMethod => ascii "invoke_method"
  | .invokeArgc => ascii "invoke_argc"
  | .invokeArgs => ascii "invoke_args"
  | .time => ascii "time"

theorem zero_notMem_busAttribs (a : BusAttrib) : 0 ∉ busAttribs a := by
  cases a <;> decide

def BUS_REQ_PING : UInt8 := 3
def BUSD_REPLY_PONG : UInt8 := 4
def BUS_REQ_LOOKUP : UInt8 := 5
def BUSD_REPLY_LOOKUP : UInt8 := 6
def BUS_REQ_INVOKE : UInt8 := 7
def BUSD_REPLY_INVOKE : UInt8 := 8
def BUSD_FORWARD_INVOKE : UInt8 := 9
def BUS_REPLY_FORWARD_INVOKE : UInt8 := 10
def BUS_REQ_ADD_OBJECT : UInt8 := 11
def BUSD_REPLY_ADD_OBJECT : UInt8 := 12
def BUS_REQ_LAST : UInt8 := 17

/-- `bus_process_receiving_data_callback`. -/
def bus : Endpoint BusAttrib where
  attribs := busAttribs
  handlers := [(BUSD_REPLY_ADD_OBJECT, [.state, .objid]),
    (BUSD_REPLY_LOOKUP, [.objid, .objinfos]),
    (BUSD_REPLY_INVOKE, [.state, .objid, .invokeMethod, .payload]),
    (BUSD_FORWARD_INVOKE, [.invokeSrcFd, .invokeMethod, .invokeArgc, .invokeArgs, .objid]),
    (BUSD_REPLY_PONG, [.time])]
  accepts := fun hdr ↦ hdrType hdr ≤ BUS_REQ_LAST
  dropsEmpty := true
  nul_free := zero_notMem_busAttribs
  handled := by decide

/-- `busd_process_receiving_data_callback`. The daemon's table has one name less than the one of
the bus. -/
def busd : Endpoint {a : BusAttrib // a ≠ .invokeDstFd} where
  attribs := fun a ↦ busAttribs a
  handlers := [(BUS_REQ_ADD_OBJECT, [⟨.objid, nofun⟩, ⟨.objinfos, nofun⟩]),
    (BUS_REQ_LOOKUP, [⟨.objid, nofun⟩]),
    (BUS_REQ_INVOKE, [⟨.objid, nofun⟩, ⟨.invokeMethod, nofun⟩, ⟨.invokeArgc, nofun⟩,
      ⟨.invokeArgs, nofun⟩]),
    (BUS_REPLY_FORWARD_INVOKE, [⟨.state, nofun⟩, ⟨.invokeMethod, nofun⟩, ⟨.objid, nofun⟩,
      ⟨.invokeSrcFd, nofun⟩, ⟨.payload, nofun⟩]),
    (BUS_REQ_PING, [⟨.time, nofun⟩])]
  accepts := fun hdr ↦ hdrType hdr ≤ BUS_REQ_LAST ∧ hdrVersion hdr = 0 ∧
    beNat (field hdr 2 4) = 0 ∧ beNat (field hdr 6 4) = 0
  dropsEmpty := false
  nul_free := fun a ↦ zero_notMem_busAttribs a
  handled := by decide

/-- What the receive callbacks of the bus and of the daemon make of a delivery. -/
theorem framed_bus_and_busd (fails : List Call → Bool) :
    (∀ d : Delivery bus,
      d.Framed fails ↔ (∀ m ∈ d.msgs, m.SelfContained bus) ∧ d.FailsAtEnd fails) ∧
    (∀ d : Delivery busd,
      d.Framed fails ↔ (∀ m ∈ d.msgs, m.SelfContained busd) ∧ d.FailsAtEnd fails) :=
  ⟨fun d ↦ framed_iff d fails, fun d ↦ framed_iff d fails⟩

/-- `bus_invoke` of a method without arguments. -/
def invokeMsg (objectId method : Text) : Msg :=
  ⟨BUS_REQ_INVOKE, ascii "invoke", [⟨3, ascii "object_id", objectId ++ [0]⟩,
    ⟨3, ascii "invoke_method", method ++ [0]⟩, ⟨8, ascii "invoke_argc", [0]⟩,
    ⟨2, ascii "invoke_args", []⟩]⟩

/-- `bus_ping`. -/
def pingMsg : Msg := ⟨BUS_REQ_PING, ascii "TTL", [⟨6, ascii "time", [0, 0, 0, 9]⟩]⟩

/-- An invoke and a ping that arrive at the daemon in one chunk. -/
def invokeThenPing : Delivery busd where
  msgs := [invokeMsg [97] [109], pingMsg]
  chunks := [stream [invokeMsg [97] [109], pingMsg]]
  wellFormed := by
    intro m hm
    simp only [List.mem_cons, List.not_mem_nil, or_false] at hm
    rcases hm with rfl | rfl
    · exact ⟨by decide, ⟨by decide, by decide⟩, by decide, by
        intro x hx
        simp only [invokeMsg, List.mem_cons, List.not_mem_nil, or_false] at hx
        rcases hx with rfl | rfl | rfl | rfl <;> exact ⟨by decide, by decide⟩⟩
    · exact ⟨by decide, ⟨by decide, by decide⟩, by decide, by
        intro x hx
        simp only [pingMsg, List.mem_cons, List.not_mem_nil, or_false] at hx
        rcases hx with rfl
        exact ⟨by decide, by decide⟩⟩
  nonempty := by decide
  bytes := by simp
  fits := fits_of_total (by decide +kernel)

/-- The object of the invoke is not registered, its handler fails, and the ping behind it is
dropped with the ring buffer. -/
theorem not_framed_invokeThenPing :
    ¬((∀ (d : Delivery bus) (fails : List Call → Bool), d.Framed fails) ∧
      (∀ (d : Delivery busd) (fails : List Call → Bool), d.Framed fails)) := by
  rintro ⟨-, hbusd⟩
  let unregistered : List Call → Bool := fun calls ↦
    match calls.getLast? with
    | some c => hdrType c.message = BUS_REQ_INVOKE
    | none => false
  have hframed := hbusd invokeThenPing unregistered
  obtain ⟨before, hpre, hflat⟩ :=
    (framed_iff invokeThenPing unregistered).mp hframed |>.2 [invokeMsg [97] [109]] [pingMsg] rfl
      (by decide)
  have hlen := congrArg List.length hflat
  rcases List.prefix_cons_iff.mp hpre with rfl | ⟨tail, rfl, htail⟩
  · exact absurd hlen (by decide)
  · rw [List.prefix_nil.mp htail] at hlen
    exact absurd hlen (by decide +kernel)

end Libobject.Bus
