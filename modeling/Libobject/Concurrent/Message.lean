import Mathlib.Data.List.Basic
import Mathlib.Logic.Function.Basic
import Libobject.Event.Registry
import Libobject.Lib.Scan

/-!
# The message centre

A published message waits in the queue of the centre, and a datagram wakes the centre up, which
takes a message and walks over the map of the subscribers. The handlers run while it does so: the
walk is a step for each subscriber that is called, and between two of them everything may happen
that may happen outside it. A subscriber is its address, which is not used again.
-/

namespace Libobject.Concurrent

open Std Event

structure Message where
  publisher : ℕ
  what : Text
  opaque_arg : ℕ
  deriving DecidableEq

structure Centor where
  message_queue : List Message
  /-- the publishers under the addresses of their subscribers -/
  subscriber_map : NumberMap
  /-- of each subscriber -/
  method_map : ℕ → RbTreeMap strcmp ℕ
  destroyed : List ℕ
  /-- the message that is delivered and how many entries of the map are behind the walk -/
  walk : Option (Message × ℕ)

inductive Happening
  | subscribe (subscriber publisher : ℕ)
  | add_method (subscriber : ℕ) (what : Text) (method : ℕ)
  | publish_message (message : Message)
  | destroy (subscriber : ℕ)
  | datagram (bytes : List UInt8)
  | for_each
  deriving DecidableEq

/-- What a step leads to: a message is taken, a subscriber's handler is called, which has found a
method or not, or the walk comes to its end. -/
inductive Effect
  | nothing
  | taken (message : Message)
  | called (subscriber : ℕ) (method : Option ℕ)
  | finished
  deriving DecidableEq

namespace Centor

variable (rb : Rebalance (ℕ × ℕ)) (rbm : Rebalance (Text × ℕ))

def new : Centor := ⟨[], .empty, fun _ ↦ .empty, [], none⟩

/-- The map is printed behind it, which looks into every subscriber. This is a walk, too, and the
map has one iterator for all: it stands at the end then. -/
def subscribe (c : Centor) (s p : ℕ) : Option Centor :=
  let map := c.subscriber_map.add rb s p
  if ∃ e ∈ map.entries, e.1 ∈ c.destroyed then none
  else some { c with
    subscriber_map := map
    walk := c.walk.map fun w ↦ (w.1, map.entries.length) }

def add_method (c : Centor) (s : ℕ) (what : Text) (method : ℕ) : Option Centor :=
  if s ∈ c.destroyed then none
  else some { c with
    method_map := Function.update c.method_map s ((c.method_map s).add rbm what method) }

def publish_message (c : Centor) (message : Message) : Option Centor :=
  some { c with message_queue := c.message_queue ++ [message] }

/-- The map of the centre is left as it is. -/
def deconstruct (c : Centor) (s : ℕ) : Option Centor :=
  if s ∈ c.destroyed then none else some { c with destroyed := s :: c.destroyed }

/-- Without a message its pointer is not initialised. -/
def work_callback (c : Centor) : Option (Centor × Effect) :=
  match c.message_queue with
  | [] => none
  | m :: queue => some ({ c with message_queue := queue, walk := some (m, 0) }, .taken m)

/-- A byte that is not `p` is warned of. -/
def ev_callback (c : Centor) : List UInt8 → Option (Centor × Effect)
  | [] => some (c, .nothing)
  | _ :: _ => c.work_callback

/-- The entries from the next one of the publisher on. -/
def rest (c : Centor) (p i : ℕ) : List (ℕ × ℕ) :=
  (c.subscriber_map.entries.drop i).dropWhile fun e ↦ e.2 ≠ p

def message_handler (c : Centor) (s : ℕ) (m : Message) : Option ℕ :=
  (c.method_map s).search m.what

/-- The walk goes on to the next subscriber of the publisher. -/
def for_each (c : Centor) (m : Message) (i : ℕ) : Option (Centor × Effect) :=
  match c.rest m.publisher i with
  | [] => some ({ c with walk := none }, .finished)
  | e :: rest =>
    if e.1 ∈ c.destroyed then none
    else some ({ c with walk := some (m, c.subscriber_map.entries.length - rest.length) },
      .called e.1 (c.message_handler e.1 m))

def silent (c : Option Centor) : Option (Centor × Effect) := c.map fun c ↦ (c, .nothing)

/-- A datagram that comes during a walk waits, since one thread does both. -/
def call (c : Centor) : Happening → Option (Centor × Effect)
  | .subscribe s p => silent (c.subscribe rb s p)
  | .add_method s what method => silent (c.add_method rbm s what method)
  | .publish_message m => silent (c.publish_message m)
  | .destroy s => silent (c.deconstruct s)
  | .datagram bytes =>
    match c.walk with
    | none => c.ev_callback bytes
    | some _ => some (c, .nothing)
  | .for_each =>
    match c.walk with
    | none => some (c, .nothing)
    | some (m, i) => c.for_each m i

end Centor

/-! ## What the centre is for -/

/-- A message on its way: who has been called for it, and who has to be. -/
structure Delivery where
  message : Message
  reached : List ℕ
  due : List ℕ
  deriving DecidableEq

structure Board where
  queue : List Message
  subscribed : List (ℕ × ℕ)
  methods : List (ℕ × Text × ℕ)
  destroyed : List ℕ
  delivery : Option Delivery

namespace Board

def new : Board := ⟨[], [], [], [], none⟩

/-- The message that a datagram stands for. -/
def announced (a : Board) (bytes : List UInt8) : Option Message :=
  if a.delivery = none ∧ bytes.head? = some 112 then a.queue.head? else none

def Registered (a : Board) (s : ℕ) (what : Text) : Option ℕ → Prop
  | none => ∀ e ∈ a.methods, ¬(e.1 = s ∧ e.2.1 = what)
  | some method => (s, what, method) ∈ a.methods

instance decidableRegistered (a : Board) (s : ℕ) (what : Text) :
    (method : Option ℕ) → Decidable (a.Registered s what method)
  | none => inferInstanceAs (Decidable (∀ e ∈ _, ¬_))
  | some _ => inferInstanceAs (Decidable (_ ∈ _))

/-- A walk reaches only those who are alive and subscribed and were not called before, by the
method they registered, and comes to its end only when all have been reached that had to be. -/
def Delivers (a : Board) (d : Delivery) : Effect → Prop
  | .called s method => s ∉ a.destroyed ∧ (s, d.message.publisher) ∈ a.subscribed ∧
      s ∉ d.reached ∧ a.Registered s d.message.what method
  | .finished => ∀ s ∈ d.due, s ∈ d.reached
  | _ => False

instance decidableDelivers (a : Board) (d : Delivery) : (o : Effect) → Decidable (a.Delivers d o)
  | .nothing => inferInstanceAs (Decidable False)
  | .taken _ => inferInstanceAs (Decidable False)
  | .called _ _ => inferInstanceAs (Decidable (_ ∧ _))
  | .finished => inferInstanceAs (Decidable (∀ s ∈ _, _))

def Allowed (a : Board) : Happening → Effect → Prop
  | .datagram bytes, o => o = (a.announced bytes).elim .nothing .taken
  | .for_each, o => (a.delivery = none → o = .nothing) ∧ ∀ d ∈ a.delivery, a.Delivers d o
  | _, o => o = .nothing

instance decidableAllowed (a : Board) (o : Effect) :
    (e : Happening) → Decidable (a.Allowed e o)
  | .subscribe _ _ => inferInstanceAs (Decidable (o = _))
  | .add_method _ _ _ => inferInstanceAs (Decidable (o = _))
  | .publish_message _ => inferInstanceAs (Decidable (o = _))
  | .destroy _ => inferInstanceAs (Decidable (o = _))
  | .datagram _ => inferInstanceAs (Decidable (o = _))
  | .for_each => inferInstanceAs (Decidable (_ ∧ _))

def next (a : Board) : Happening → Effect → Board
  | .subscribe s p, _ => { a with subscribed := (s, p) :: a.subscribed }
  | .add_method s what method, _ => { a with methods := (s, what, method) :: a.methods }
  | .publish_message m, _ => { a with queue := a.queue ++ [m] }
  | .destroy s, _ =>
    { a with
      subscribed := a.subscribed.filter fun e ↦ e.1 ≠ s
      destroyed := s :: a.destroyed
      delivery := a.delivery.map fun d ↦ { d with due := d.due.filter (· ≠ s) } }
  | .datagram bytes, _ =>
    match a.announced bytes with
    | none => a
    | some m =>
      { a with
        queue := a.queue.tail
        delivery := some
          ⟨m, [], (a.subscribed.filter fun e ↦ e.2 = m.publisher).map Prod.fst⟩ }
  | .for_each, .called s _ =>
    { a with delivery := a.delivery.map fun d ↦ { d with reached := s :: d.reached } }
  | .for_each, _ => { a with delivery := none }

def spec : Spec Board Happening Effect := ⟨Allowed, next⟩

instance decidableOk (a : Board) (e : Happening) (o : Effect) : Decidable (spec.ok a e o) :=
  decidableAllowed a o e

end Board

/-- No subscriber that is gone is in the map where it is looked into, nobody is called who has
subscribed twice to the publisher, nobody subscribes while a walk has still to reach somebody, and a
datagram says `p` and finds a message. -/
def Undisturbed (c : Centor) : Happening → Prop
  | .subscribe s p => (∀ e ∈ (s, p) :: c.subscriber_map.entries, e.1 ∉ c.destroyed) ∧
      ∀ w ∈ c.walk, c.rest w.1.publisher w.2 = []
  | .add_method s _ _ => s ∉ c.destroyed
  | .publish_message _ => True
  | .destroy s => s ∉ c.destroyed
  | .datagram bytes =>
    c.walk = none → bytes ≠ [] → bytes.head? = some 112 ∧ c.message_queue ≠ []
  | .for_each => ∀ w ∈ c.walk, ∀ e ∈ (c.rest w.1.publisher w.2).head?,
      e.1 ∉ c.destroyed ∧ c.subscriber_map.entries.count e = 1

instance decidableUndisturbed (c : Centor) : (e : Happening) → Decidable (Undisturbed c e)
  | .subscribe _ _ => inferInstanceAs (Decidable ((∀ e ∈ _, _) ∧ ∀ w ∈ _, _))
  | .add_method _ _ _ => inferInstanceAs (Decidable (_ ∉ _))
  | .publish_message _ => inferInstanceAs (Decidable True)
  | .destroy _ => inferInstanceAs (Decidable (_ ∉ _))
  | .datagram _ => inferInstanceAs (Decidable (_ → _ → _ ∧ _))
  | .for_each => inferInstanceAs (Decidable (∀ w ∈ _, ∀ e ∈ _, _ ∧ _))

section Simulation

variable {c : Centor} {a : Board}

/-- A walk over the first `i` entries has called those it had to. -/
structure Follows (es : List (ℕ × ℕ)) (destroyed : List ℕ) (i : ℕ) (d : Delivery) : Prop where
  reached : ∀ s ∈ d.reached, (s, d.message.publisher) ∈ es.take i
  due : ∀ s ∈ d.due, s ∉ destroyed ∧ (s ∈ d.reached ∨ (s, d.message.publisher) ∈ es.drop i)

structure Posted (c : Centor) (a : Board) : Prop where
  queue : c.message_queue = a.queue
  destroyed : c.destroyed = a.destroyed
  methods : ∀ s ∉ c.destroyed, ∀ what method,
    (what, method) ∈ (c.method_map s).entries ↔ (s, what, method) ∈ a.methods
  subscribed : ∀ s p,
    (s, p) ∈ a.subscribed ↔ s ∉ c.destroyed ∧ (s, p) ∈ c.subscriber_map.entries
  walk : c.walk = none ∧ a.delivery = none ∨ ∃ i d, c.walk = some (d.message, i) ∧
    a.delivery = some d ∧ Follows c.subscriber_map.entries c.destroyed i d

theorem rest_cons {p i : ℕ} {e : ℕ × ℕ} {r : List (ℕ × ℕ)} (h : c.rest p i = e :: r) :
    ∃ xs, c.subscriber_map.entries = xs ++ e :: r ∧ e.2 = p ∧
      (∀ x ∈ c.subscriber_map.entries.take i, x ∈ xs) ∧
      ∀ x ∈ c.subscriber_map.entries.drop i, x.2 = p → x ∈ e :: r := by
  have hsplit := List.takeWhile_append_dropWhile (p := fun e : ℕ × ℕ ↦ decide (e.2 ≠ p))
    (l := c.subscriber_map.entries.drop i)
  rw [Centor.rest] at h
  rw [h] at hsplit
  refine ⟨c.subscriber_map.entries.take i ++
    (c.subscriber_map.entries.drop i).takeWhile fun e ↦ e.2 ≠ p, ?_, ?_, ?_, ?_⟩
  · rw [List.append_assoc, hsplit, List.take_append_drop]
  · have hhead := List.head?_dropWhile_not (fun e : ℕ × ℕ ↦ decide (e.2 ≠ p))
      (c.subscriber_map.entries.drop i)
    rw [h] at hhead
    simpa using hhead
  · exact fun x hx ↦ List.mem_append_left _ hx
  · intro x hx hp
    rw [← hsplit] at hx
    refine (List.mem_append.mp hx).resolve_left fun hfront ↦ ?_
    have hne := List.mem_takeWhile_imp hfront
    exact of_decide_eq_true hne hp

theorem rest_nil {p i : ℕ} (h : c.rest p i = []) :
    ∀ x ∈ c.subscriber_map.entries.drop i, x.2 ≠ p := fun x hx ↦
  of_decide_eq_true (List.dropWhile_eq_nil_iff.mp h x hx)

variable {rb : Rebalance (ℕ × ℕ)} {rbm : Rebalance (Text × ℕ)}

variable (rb rbm) in
/-- A step answers as it should, and the centre still does what it is for. -/
def Serves (c : Centor) (a : Board) (e : Happening) : Prop :=
  ∃ c' o, c.call rb rbm e = some (c', o) ∧ Board.spec.ok a e o ∧ Posted c' (Board.spec.next a e o)

theorem serves_of {c' : Centor} {e : Happening} {o : Effect}
    (hcall : c.call rb rbm e = some (c', o)) (hok : Board.spec.ok a e o)
    (h : Posted c' (Board.spec.next a e o)) : Serves rb rbm c a e :=
  ⟨c', o, hcall, hok, h⟩

theorem Posted.subscribe (h : Posted c a) {s p : ℕ} (hq : Undisturbed c (.subscribe s p)) :
    Serves rb rbm c a (.subscribe s p) := by
  obtain ⟨hs, hentries⟩ := List.forall_mem_cons.mp hq.1
  have hmem : ∀ e, e ∈ (c.subscriber_map.add rb s p).entries ↔
      e = (s, p) ∨ e ∈ c.subscriber_map.entries := fun e ↦
    (c.subscriber_map.entries_add rb s p).mem_iff.trans List.mem_cons
  have hlive : ¬∃ e ∈ (c.subscriber_map.add rb s p).entries, e.1 ∈ c.destroyed := by
    rintro ⟨e, he, hdestroyed⟩
    rcases (hmem e).mp he with rfl | he
    · exact hs hdestroyed
    · exact hentries e he hdestroyed
  have hcall : c.subscribe rb s p = some _ := if_neg hlive
  refine serves_of (congrArg Centor.silent hcall) rfl ⟨h.queue, h.destroyed, h.methods, ?_, ?_⟩
  · intro t q
    refine Iff.trans List.mem_cons ?_
    refine Iff.trans ?_ (and_congr_right fun _ ↦ (hmem (t, q)).symm)
    rw [h.subscribed, and_or_left]
    refine or_congr_left ⟨fun heq ↦ ⟨?_, heq⟩, And.right⟩
    cases heq
    exact hs
  · rcases h.walk with ⟨hwalk, hdelivery⟩ | ⟨i, d, hwalk, hdelivery, hfollows⟩
    · exact .inl ⟨congrArg (Option.map _) hwalk, hdelivery⟩
    · refine .inr ⟨_, d, congrArg (Option.map _) hwalk, hdelivery, fun t ht ↦ ?_, fun t ht ↦ ?_⟩
      · rw [List.take_length]
        exact (hmem _).mpr (.inr (List.mem_of_mem_take (hfollows.reached t ht)))
      · refine (hfollows.due t ht).imp_right fun hor ↦ .inl (hor.resolve_right fun hleft ↦ ?_)
        exact rest_nil (hq.2 _ hwalk) _ hleft rfl

theorem Posted.add_method (h : Posted c a) {s : ℕ} {what : Text} {method : ℕ}
    (hs : s ∉ c.destroyed) : Serves rb rbm c a (.add_method s what method) := by
  have hcall : c.add_method rbm s what method = some _ := if_neg hs
  refine serves_of (congrArg Centor.silent hcall) rfl ⟨h.queue, h.destroyed, ?_, h.subscribed,
    h.walk⟩
  intro t ht w f
  refine Iff.trans ?_ List.mem_cons.symm
  rw [← h.methods t ht]
  change (w, f) ∈ (Function.update c.method_map s _ t).entries ↔ _
  by_cases hts : t = s
  · rw [hts, Function.update_self, ((c.method_map s).entries_add rbm what method).mem_iff,
      List.mem_cons]
    simp
  · rw [Function.update_of_ne hts]
    simp [hts]

theorem Posted.publish_message (h : Posted c a) (m : Message) :
    Serves rb rbm c a (.publish_message m) :=
  ⟨_, _, rfl, rfl, congrArg (· ++ [m]) h.queue, h.destroyed, h.methods, h.subscribed, h.walk⟩

theorem Posted.destroy (h : Posted c a) {s : ℕ} (hs : s ∉ c.destroyed) :
    Serves rb rbm c a (.destroy s) := by
  have hcall : c.deconstruct s = some _ := if_neg hs
  refine serves_of (congrArg Centor.silent hcall) rfl ⟨h.queue, congrArg (s :: ·) h.destroyed,
    fun t ht ↦ h.methods t fun hmem ↦ ht (List.mem_cons_of_mem s hmem), ?_, ?_⟩
  · intro t q
    refine Iff.trans List.mem_filter ?_
    rw [h.subscribed, List.mem_cons, decide_eq_true_iff]
    tauto
  · rcases h.walk with ⟨hwalk, hdelivery⟩ | ⟨i, d, hwalk, hdelivery, hfollows⟩
    · exact .inl ⟨hwalk, congrArg (Option.map _) hdelivery⟩
    · refine .inr ⟨i, { d with due := d.due.filter (· ≠ s) }, hwalk,
        congrArg (Option.map _) hdelivery, hfollows.reached, fun t ht ↦ ?_⟩
      obtain ⟨hdue, hne⟩ := List.mem_filter.mp ht
      obtain ⟨hlive, hor⟩ := hfollows.due t hdue
      refine ⟨fun hmem ↦ ?_, hor⟩
      rcases List.mem_cons.mp hmem with heq | hmem
      · exact of_decide_eq_true hne heq
      · exact hlive hmem

theorem Posted.datagram (h : Posted c a) {bytes : List UInt8}
    (hq : Undisturbed c (.datagram bytes)) :
    Serves rb rbm c a (.datagram bytes) := by
  rcases h.walk with ⟨hwalk, hdelivery⟩ | ⟨i, d, hwalk, hdelivery, hfollows⟩
  · have hev : c.call rb rbm (.datagram bytes) = c.ev_callback bytes := by
      rw [Centor.call, hwalk]
    cases bytes with
    | nil =>
      have hannounced : a.announced [] = none := if_neg fun hhead ↦ nomatch hhead.2
      refine serves_of hev ?_ ?_
      · change Effect.nothing = _
        rw [hannounced]
        rfl
      · change Posted c (match a.announced [] with | none => a | some m => _)
        rw [hannounced]
        exact h
    | cons b bytes =>
      obtain ⟨hhead, hqueue⟩ := hq hwalk (List.cons_ne_nil b bytes)
      obtain ⟨m, queue, hcons⟩ := List.exists_cons_of_ne_nil hqueue
      have hannounced : a.announced (b :: bytes) = some m := by
        rw [Board.announced, if_pos ⟨hdelivery, hhead⟩, ← h.queue, hcons]
        rfl
      have hwork : c.work_callback =
          some ({ c with message_queue := queue, walk := some (m, 0) }, .taken m) := by
        rw [Centor.work_callback, hcons]
      refine serves_of (hev.trans hwork) ?_ ?_
      · change Effect.taken m = _
        rw [hannounced]
        rfl
      · change Posted _ (match a.announced (b :: bytes) with | none => a | some m => _)
        rw [hannounced]
        refine ⟨?_, h.destroyed, h.methods, h.subscribed, .inr ⟨0, _, rfl, rfl, ?_, ?_⟩⟩
        · rw [← h.queue, hcons]
          rfl
        · exact fun s hs ↦ nomatch hs
        · intro s hs
          obtain ⟨⟨t, q⟩, hmem, rfl⟩ := List.mem_map.mp hs
          obtain ⟨hsubscribed, hpublisher⟩ := List.mem_filter.mp hmem
          obtain rfl := of_decide_eq_true hpublisher
          obtain ⟨hlive, hentry⟩ := (h.subscribed _ _).mp hsubscribed
          exact ⟨hlive, .inr hentry⟩
  · have hannounced : a.announced bytes = none := by
      refine if_neg fun hnone ↦ ?_
      rw [hdelivery] at hnone
      exact nomatch hnone.1
    have hcall : c.call rb rbm (.datagram bytes) = some (c, .nothing) := by
      rw [Centor.call, hwalk]
    refine serves_of hcall ?_ ?_
    · change Effect.nothing = _
      rw [hannounced]
      rfl
    · change Posted c (match a.announced bytes with | none => a | some m => _)
      rw [hannounced]
      exact h

theorem Posted.registered (h : Posted c a) {s : ℕ} (hs : s ∉ c.destroyed) (m : Message) :
    a.Registered s m.what (c.message_handler s m) := by
  unfold Centor.message_handler
  cases hsearch : (c.method_map s).search m.what with
  | none =>
    rintro ⟨t, what, f⟩ hmem ⟨rfl, rfl⟩
    exact RbTreeMap.search_none hsearch (m.what, f) ((h.methods _ hs _ _).mpr hmem)
      ReflCmp.compare_self
  | some f =>
    obtain ⟨k, hk, hentry⟩ := RbTreeMap.search_some hsearch
    obtain rfl := LawfulEqCmp.eq_of_compare hk
    exact (h.methods s hs _ _).mp hentry

theorem Posted.finished (h : Posted c a) {i : ℕ} {d : Delivery}
    (hcall : c.call rb rbm .for_each = c.for_each d.message i) (hdelivery : a.delivery = some d)
    (hfollows : Follows c.subscriber_map.entries c.destroyed i d)
    (hrest : c.rest d.message.publisher i = []) :
    Serves rb rbm c a .for_each := by
  have hfinished : c.for_each d.message i = some ({ c with walk := none }, .finished) := by
    rw [Centor.for_each, hrest]
  refine serves_of (hcall.trans hfinished) ⟨fun hnone ↦ ?_, ?_⟩
    ⟨h.queue, h.destroyed, h.methods, h.subscribed, .inl ⟨rfl, rfl⟩⟩
  · rw [hdelivery] at hnone
    exact nomatch hnone
  · rintro d' hd' s hs
    obtain rfl := Option.some.inj (hdelivery.symm.trans hd')
    refine (hfollows.due s hs).2.resolve_right fun hleft ↦ ?_
    exact rest_nil hrest _ hleft rfl

theorem Posted.called (h : Posted c a) {i s p : ℕ} {r : List (ℕ × ℕ)} {d : Delivery}
    (hcall : c.call rb rbm .for_each = c.for_each d.message i) (hdelivery : a.delivery = some d)
    (hfollows : Follows c.subscriber_map.entries c.destroyed i d)
    (hrest : c.rest d.message.publisher i = (s, p) :: r) (hlive : s ∉ c.destroyed)
    (hone : c.subscriber_map.entries.count (s, p) = 1) :
    Serves rb rbm c a .for_each := by
  obtain ⟨xs, hentries, hpublisher, hbehind, hahead⟩ := rest_cons hrest
  obtain rfl : p = d.message.publisher := hpublisher
  have hnew : (s, d.message.publisher) ∉ xs := fun hmem ↦ by
    rw [hentries, List.count_append, List.count_cons_self] at hone
    have hpos := List.count_pos_iff.mpr hmem
    omega
  have hindex : c.subscriber_map.entries.length - r.length = xs.length + 1 := by
    rw [hentries, List.length_append, List.length_cons]
    omega
  have hcalled : c.for_each d.message i =
      some ({ c with walk := some (d.message, xs.length + 1) },
        .called s (c.message_handler s d.message)) := by
    rw [Centor.for_each, hrest, ← hindex]
    exact if_neg hlive
  have hsplit : c.subscriber_map.entries = (xs ++ [(s, d.message.publisher)]) ++ r := by
    rw [hentries, List.append_assoc]
    rfl
  have hlength : xs.length + 1 = (xs ++ [(s, d.message.publisher)]).length := by
    rw [List.length_append]
    rfl
  have htake : c.subscriber_map.entries.take (xs.length + 1) =
      xs ++ [(s, d.message.publisher)] := by rw [hsplit, hlength, List.take_left]
  have hdrop : c.subscriber_map.entries.drop (xs.length + 1) = r := by
    rw [hsplit, hlength, List.drop_left]
  refine serves_of (hcall.trans hcalled) ⟨fun hnone ↦ ?_, fun d' hd' ↦ ?_⟩
    ⟨h.queue, h.destroyed, h.methods, h.subscribed,
      .inr ⟨xs.length + 1, { d with reached := s :: d.reached }, rfl, ?_, ?_, ?_⟩⟩
  · rw [hdelivery] at hnone
    exact nomatch hnone
  · obtain rfl := Option.some.inj (hdelivery.symm.trans hd')
    have hentry : (s, d.message.publisher) ∈ c.subscriber_map.entries := by
      rw [hentries]
      exact List.mem_append_right _ List.mem_cons_self
    refine ⟨fun hmem ↦ hlive (h.destroyed ▸ hmem), (h.subscribed _ _).mpr ⟨hlive, hentry⟩,
      fun hmem ↦ hnew (hbehind _ (hfollows.reached s hmem)), h.registered hlive d.message⟩
  · exact congrArg (Option.map _) hdelivery
  · intro t ht
    rw [htake]
    rcases List.mem_cons.mp ht with rfl | ht
    · exact List.mem_append_right _ (List.mem_singleton.mpr rfl)
    · exact List.mem_append_left _ (hbehind _ (hfollows.reached t ht))
  · intro t ht
    obtain ⟨htlive, hor⟩ := hfollows.due t ht
    refine ⟨htlive, ?_⟩
    rcases hor with hreached | hleft
    · exact .inl (List.mem_cons_of_mem s hreached)
    · rcases List.mem_cons.mp (hahead _ hleft rfl) with heq | hr
      · exact .inl (List.mem_cons.mpr (.inl (congrArg Prod.fst heq)))
      · exact .inr (hdrop ▸ hr)

theorem Posted.for_each (h : Posted c a) (hq : Undisturbed c .for_each) :
    Serves rb rbm c a .for_each := by
  rcases h.walk with ⟨hwalk, hdelivery⟩ | ⟨i, d, hwalk, hdelivery, hfollows⟩
  · have hcall : c.call rb rbm .for_each = some (c, .nothing) := by rw [Centor.call, hwalk]
    refine serves_of hcall ⟨fun _ ↦ rfl, fun d hd ↦ ?_⟩ ?_
    · rw [hdelivery] at hd
      exact nomatch hd
    · exact ⟨h.queue, h.destroyed, h.methods, h.subscribed, .inl ⟨hwalk, rfl⟩⟩
  · have hcall : c.call rb rbm .for_each = c.for_each d.message i := by rw [Centor.call, hwalk]
    cases hrest : c.rest d.message.publisher i with
    | nil => exact h.finished hcall hdelivery hfollows hrest
    | cons e r =>
      have hhead : e ∈ (c.rest d.message.publisher i).head? := by rw [hrest]; rfl
      obtain ⟨hlive, hone⟩ := hq _ hwalk e hhead
      exact h.called hcall hdelivery hfollows hrest hlive hone

end Simulation

/-- On every run on which nobody who is gone is in the map when it is looked into, nobody
subscribes twice to the publisher of a delivered message or while a walk has somebody to reach, and
every datagram comes with a message, each message goes in its turn, once, to everybody who is
subscribed. -/
theorem centor_refines (rb : Rebalance (ℕ × ℕ)) (rbm : Rebalance (Text × ℕ))
    {es : List Happening}
    (hrun : Refine.Within (Centor.call rb rbm) Board.spec Undisturbed .new .new es) :
    Refine.Refines (Centor.call rb rbm) Board.spec .new .new es := by
  have hnew : Posted .new .new := by
    refine ⟨rfl, rfl, fun s _ what method ↦ ?_, fun s p ↦ ?_, .inl ⟨rfl, rfl⟩⟩
    · exact iff_of_false List.not_mem_nil List.not_mem_nil
    · exact iff_of_false List.not_mem_nil fun h ↦ List.not_mem_nil h.2
  refine (Refine.refines_of_simulation (I := Posted) ?_ hnew hrun).2
  intro c a e h hq
  cases e with
  | subscribe s p => exact h.subscribe hq
  | add_method s what method => exact h.add_method hq
  | publish_message m => exact h.publish_message m
  | destroy s => exact h.destroy hq
  | datagram bytes => exact h.datagram hq
  | for_each => exact h.for_each hq

/-- Two subscribers; the handler of the first publishes a message of its own. -/
theorem centor_refines_few :
    Refine.Refines (Centor.call (.small _) (.small _)) Board.spec .new .new
      [.subscribe 20 1, .subscribe 10 1, .subscribe 10 2, .add_method 10 [104] 7,
        .publish_message ⟨1, [104], 0⟩, .datagram [], .datagram [112], .for_each,
        .publish_message ⟨2, [104], 1⟩, .for_each, .for_each, .datagram [112], .for_each,
        .for_each, .destroy 20] :=
  centor_refines (.small _) (.small _) (by decide)

/-- Who has subscribed twice is called twice. -/
theorem not_centor_refines : ¬∀ (rb : Rebalance (ℕ × ℕ)) (rbm : Rebalance (Text × ℕ))
    (es : List Happening), Refine.Refines (Centor.call rb rbm) Board.spec .new .new es := by
  intro h
  have hrun := h (.small _) (.small _) [.subscribe 10 1, .subscribe 10 1,
    .publish_message ⟨1, [104], 0⟩, .datagram [112], .for_each, .for_each]
  revert hrun
  decide

end Libobject.Concurrent
