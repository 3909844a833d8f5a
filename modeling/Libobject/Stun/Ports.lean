import Libobject.Core.RbTreeMap
import Libobject.Lib.Decimal
import Libobject.Lib.Run
import Mathlib.Data.List.Basic
import Mathlib.Data.List.Perm.Basic

/-!
# The ports of the sessions

A node may be told which local ports its sessions use, as a list of ports and of ranges. The list is
read when the first session asks for a port; what is kept of it is at most
`STUN_SERVICE_POOL_MAX` ports, each with a flag that tells whether a session has it. A session
without a fixed port has the port 0.
-/

namespace Libobject.Stun.Ports

open Scan

def STUN_SERVICE_POOL_MAX : ℕ := 32

/-! ## The text -/

/-- The tokens of `strtok_r`. -/
def items (s : Text) : List Text := (s.splitOn 44).filter fun tok ↦ tok ≠ []

/-- The ports of one item, where `value` reads a number. -/
def itemPorts (value : Text → ℤ) (tok : Text) : List ℕ :=
  if 45 ∈ tok then
    let lo := value tok
    let hi := value ((tok.dropWhile fun c ↦ c ≠ 45).drop 1)
    if lo ≤ 0 ∨ hi < lo ∨ hi > 65535 then [] else List.range' lo.toNat (hi - lo + 1).toNat
  else
    let p := value tok
    if p ≤ 0 ∨ p > 65535 then [] else [p.toNat]

/-- The ports that `__parse_ports` writes to `pool_ports`: as many as there is room for. -/
def parse_ports (local_service : Text) : List ℕ :=
  if local_service = [] ∨ local_service = ascii "0" ∨ local_service = ascii "auto" ∨
      local_service = ascii "-" then []
  else
    (items (local_service.take 511)).foldl
      (fun ports tok ↦
        ports ++ (itemPorts atoi tok).take (STUN_SERVICE_POOL_MAX - ports.length)) []

/-! ## Sessions -/

/-- The sessions with their ports, under the ids that they keep. -/
structure Node where
  local_service : Text
  pool_parsed : Bool
  pool_ports : List ℕ
  pool_used : List Bool
  sessions : RbTreeMap strcmp ℕ

/-- A node without sessions; without a `local_service` the text is empty. -/
def Node.new (local_service : Text) : Node :=
  ⟨local_service, false, [], List.replicate STUN_SERVICE_POOL_MAX false, .empty⟩

/-- What a new session gets: memory, a socket, its request and response, and whether its probe can
be sent. -/
structure Resources where
  memory : Bool
  client : Bool
  objects : Bool
  probed : Bool
  deriving DecidableEq

namespace Node

/-- The port is `none` where -1 is returned. -/
def alloc_port (n : Node) : Node × Option ℕ :=
  let n := if n.pool_parsed then n
    else { n with pool_parsed := true, pool_ports := parse_ports n.local_service }
  if n.pool_ports = [] then (n, some 0)
  else
    match (n.pool_used.take n.pool_ports.length).findIdx? fun used ↦ !used with
    | none => (n, none)
    | some i => ({ n with pool_used := n.pool_used.set i true }, n.pool_ports[i]?)

def free_port (n : Node) (port : ℕ) : Node :=
  if port = 0 then n
  else
    match n.pool_ports.findIdx? fun p ↦ p = port with
    | none => n
    | some i => { n with pool_used := n.pool_used.set i false }

variable (rb : Rebalance (Text × ℕ))

def close_session (n : Node) (remote_id : Text) : Node × ℤ :=
  match n.sessions.search remote_id with
  | none => (n, 0)
  | some port =>
    ({ n.free_port port with sessions := n.sessions.del rb remote_id }, 1)

/-- A session is kept under as much of the id as it holds, and looked up under the whole. -/
def create_session (n : Node) (remote_id : Text) (res : Resources) : Node × ℤ :=
  match n.sessions.search remote_id with
  | some _ => (n, if res.probed then 1 else -1)
  | none =>
    if !res.memory then (n, -1)
    else
      match n.alloc_port with
      | (n, none) => (n, -1)
      | (n, some port) =>
        if !res.client || !res.objects then (n.free_port port, -1)
        else
          let n := { n with sessions := n.sessions.add rb (remote_id.take 31) port }
          if (n.sessions.search remote_id).isSome && res.probed then (n, 1)
          else ((n.close_session rb remote_id).1, -1)

end Node

inductive Call
  | create (remote_id : Text) (res : Resources)
  | close (remote_id : Text)
  deriving DecidableEq

def Node.call (rb : Rebalance (Text × ℕ)) (n : Node) : Call → Node
  | .create remote_id res => (n.create_session rb remote_id res).1
  | .close remote_id => (n.close_session rb remote_id).1

/-! ## What the text configures -/

/-- The number that a text begins with, however large. -/
def number (s : Text) : ℤ :=
  let (neg, body) := scanSign (skipSpace s)
  let v : ℤ := decimal (body.takeWhile isDigit)
  if neg then -v else v

/-- The ports that the items of a text mean, as many as a node can have. -/
def configured (local_service : Text) : List ℕ :=
  ((items local_service).flatMap (itemPorts number)).take STUN_SERVICE_POOL_MAX

/-- The fixed ports of the sessions. -/
def Node.fixed (n : Node) : List ℕ := (n.sessions.entries.map Prod.snd).filter fun p ↦ p ≠ 0

/-- What should hold of the ports in every state. -/
structure Pooled (ports : List ℕ) (rb : Rebalance (Text × ℕ)) (n : Node) : Prop where
  distinct : n.fixed.Nodup
  configured : ∀ p ∈ n.fixed, p ∈ ports
  fails_iff : n.alloc_port.2 = none ↔ ports ≠ [] ∧ ∀ p ∈ ports, p ∈ n.fixed
  gives : ∀ p, n.alloc_port.2 = some p → if ports = [] then p = 0 else p ∈ ports ∧ p ∉ n.fixed
  frees : ∀ id port, n.sessions.search id = some port → port ∉ (n.close_session rb id).1.fixed

/-- No port is configured twice, no number is so large that it is another one as an `int`, and what
is cut off the text makes no difference. -/
structure Plain (local_service : Text) : Prop where
  distinct : (configured local_service).Nodup
  fits : ∀ tok ∈ items (local_service.take 511), itemPorts atoi tok = itemPorts number tok
  cut : configured (local_service.take 511) = configured local_service

instance decidablePlain (local_service : Text) : Decidable (Plain local_service) :=
  decidable_of_iff ((configured local_service).Nodup ∧
      (∀ tok ∈ items (local_service.take 511), itemPorts atoi tok = itemPorts number tok) ∧
        configured (local_service.take 511) = configured local_service)
    ⟨fun ⟨h₁, h₂, h₃⟩ ↦ ⟨h₁, h₂, h₃⟩, fun ⟨h₁, h₂, h₃⟩ ↦ ⟨h₁, h₂, h₃⟩⟩

/-! ## Reading the text -/

section Items

variable {α β : Type*}

theorem take_take_append (l r : List α) (k : ℕ) : (l.take k ++ r).take k = (l ++ r).take k := by
  rcases le_total l.length k with hl | hl
  · rw [List.take_of_length_le hl]
  · have hlen : (l.take k).length = k := by rw [List.length_take, min_eq_left hl]
    rw [List.take_append_of_le_length hlen.ge, List.take_append_of_le_length hl, List.take_take,
      min_self]

theorem foldl_fill (f : β → List α) (k : ℕ) (toks : List β) {acc : List α} (hacc : acc.length ≤ k) :
    toks.foldl (fun ports tok ↦ ports ++ (f tok).take (k - ports.length)) acc =
      (acc ++ toks.flatMap f).take k := by
  induction toks generalizing acc with
  | nil => rw [List.foldl_nil, List.flatMap_nil, List.append_nil, List.take_of_length_le hacc]
  | cons tok toks ih =>
    have hstep : acc ++ (f tok).take (k - acc.length) = (acc ++ f tok).take k := by
      rw [List.take_append, List.take_of_length_le hacc]
    rw [List.foldl_cons, hstep, ih (List.length_take_le _ _), take_take_append,
      List.flatMap_cons, List.append_assoc]

end Items

theorem mem_itemPorts {value : Text → ℤ} {tok : Text} {p : ℕ} (h : p ∈ itemPorts value tok) :
    p ≠ 0 := by
  rw [itemPorts] at h
  split at h
  · dsimp only at h
    split at h
    · exact (List.not_mem_nil h).elim
    · next hok =>
        rw [List.mem_range'_1] at h
        omega
  · dsimp only at h
    split at h
    · exact (List.not_mem_nil h).elim
    · next hok =>
        rw [List.mem_singleton] at h
        omega

theorem parse_ports_eq {text : Text} (h : Plain text) : parse_ports text = configured text := by
  rw [parse_ports]
  split
  · next hauto =>
      rcases hauto with rfl | rfl | rfl | rfl <;> decide
  · rw [foldl_fill _ _ _ (Nat.zero_le _), List.nil_append, ← h.cut, configured,
      List.flatMap_congr h.fits]

theorem configured_length_le (text : Text) : (configured text).length ≤ STUN_SERVICE_POOL_MAX :=
  List.length_take_le _ _

theorem zero_notMem_configured (text : Text) : 0 ∉ configured text := by
  intro h
  obtain ⟨tok, -, htok⟩ := List.mem_flatMap.mp (List.mem_of_mem_take h)
  exact mem_itemPorts htok rfl

/-! ## The flags and the ports that are held -/

/-- The flag of a port tells whether it is among those `held`. -/
structure PoolHolds (ports : List ℕ) (n : Node) (held : List ℕ) : Prop where
  parses : n.pool_parsed = false →
    parse_ports n.local_service = ports ∧ n.pool_ports = [] ∧ held = []
  parsed : n.pool_parsed = true → n.pool_ports = ports
  used : n.pool_used.length = STUN_SERVICE_POOL_MAX
  flag : ∀ (i p : ℕ), ports[i]? = some p → n.pool_used[i]? = some (decide (p ∈ held))
  nodup : held.Nodup
  sub : ∀ p ∈ held, p ∈ ports

namespace PoolHolds

variable {ports held held' : List ℕ} {n : Node}

theorem perm (h : PoolHolds ports n held) (hperm : held.Perm held') : PoolHolds ports n held' where
  parses hn := by
    obtain ⟨h₁, h₂, rfl⟩ := h.parses hn
    exact ⟨h₁, h₂, hperm.nil_eq.symm⟩
  parsed := h.parsed
  used := h.used
  flag i p hp := by
    rw [h.flag i p hp]
    congr 2
    exact propext hperm.mem_iff
  nodup := hperm.nodup_iff.mp h.nodup
  sub p hp := h.sub p (hperm.mem_iff.mpr hp)

theorem with_sessions (h : PoolHolds ports n held) (t : RbTreeMap strcmp ℕ) :
    PoolHolds ports { n with sessions := t } held :=
  ⟨h.parses, h.parsed, h.used, h.flag, h.nodup, h.sub⟩

theorem nil_or_parsed (h : PoolHolds ports n held) : n.pool_ports = [] ∨ n.pool_ports = ports := by
  cases hn : n.pool_parsed with
  | false => exact .inl (h.parses hn).2.1
  | true => exact .inr (h.parsed hn)

theorem read (h : PoolHolds ports n held) :
    ∃ n', n'.pool_ports = ports ∧ n'.pool_parsed = true ∧ n'.sessions = n.sessions ∧
      n'.alloc_port = n.alloc_port ∧ PoolHolds ports n' held := by
  cases hn : n.pool_parsed with
  | true => exact ⟨n, h.parsed hn, hn, rfl, rfl, h⟩
  | false =>
    refine ⟨{ n with pool_parsed := true, pool_ports := parse_ports n.local_service },
      (h.parses hn).1, rfl, rfl, ?_, ?_⟩
    · rw [Node.alloc_port, Node.alloc_port, if_pos rfl, hn, if_neg Bool.false_ne_true]
    · exact ⟨fun hf ↦ (Bool.false_ne_true hf.symm).elim, fun _ ↦ (h.parses hn).1, h.used, h.flag,
        h.nodup, h.sub⟩

theorem take (h : PoolHolds ports n held) (hports : ports.Nodup) {i p : ℕ} (hi : ports[i]? = some p)
    (hp : p ∉ held) (hn : n.pool_parsed = true) :
    PoolHolds ports { n with pool_used := n.pool_used.set i true } (p :: held) where
  parses hf := (Bool.false_ne_true (hf.symm.trans hn)).elim
  parsed := h.parsed
  used := by rw [List.length_set, h.used]
  flag j q hq := by
    rcases eq_or_ne i j with rfl | hij
    · cases hi.symm.trans hq
      obtain ⟨hlt, -⟩ := List.getElem?_eq_some_iff.mp (h.flag i p hi)
      rw [List.getElem?_set_self hlt, decide_eq_true List.mem_cons_self]
    · have hqp : q ≠ p := by
        rintro rfl
        obtain ⟨hlt, hget⟩ := List.getElem?_eq_some_iff.mp hi
        exact hij ((List.getElem?_inj hlt hports).mp (hi.trans hq.symm))
      rw [List.getElem?_set_ne hij, h.flag j q hq]
      simp only [List.mem_cons, hqp, false_or]
  nodup := List.nodup_cons.mpr ⟨hp, h.nodup⟩
  sub q hq := by
    rcases List.mem_cons.mp hq with rfl | hq
    · exact List.mem_of_getElem? hi
    · exact h.sub q hq

theorem alloc_port (h : PoolHolds ports n held) (hports : ports.Nodup)
    (hmax : ports.length ≤ STUN_SERVICE_POOL_MAX) :
    n.alloc_port.1.sessions = n.sessions ∧
      ((ports = [] ∧ n.alloc_port.2 = some 0 ∧ PoolHolds ports n.alloc_port.1 held) ∨
        (ports ≠ [] ∧ (∀ p ∈ ports, p ∈ held) ∧ n.alloc_port.2 = none ∧
          PoolHolds ports n.alloc_port.1 held) ∨
        ∃ p, p ∈ ports ∧ p ∉ held ∧ n.alloc_port.2 = some p ∧
          PoolHolds ports n.alloc_port.1 (p :: held)) := by
  obtain ⟨n', rfl, hn, hsess, hsame, h'⟩ := h.read
  rw [← hsame, ← hsess, Node.alloc_port, if_pos hn]
  by_cases hnil : n'.pool_ports = []
  · rw [if_pos hnil]
    exact ⟨rfl, .inl ⟨hnil, rfl, h'⟩⟩
  · rw [if_neg hnil]
    -- a flag among the first as many as there are ports belongs to a port
    have hflag : ∀ (i : ℕ) (u : Bool), (n'.pool_used.take n'.pool_ports.length)[i]? = some u →
        ∃ p, n'.pool_ports[i]? = some p ∧ u = decide (p ∈ held) := by
      intro i u hu
      obtain ⟨hlt, -⟩ := List.getElem?_eq_some_iff.mp hu
      rw [List.length_take, lt_min_iff] at hlt
      rw [List.getElem?_take_of_lt hlt.1, h'.flag i _ (List.getElem?_eq_getElem hlt.1),
        Option.some.injEq] at hu
      exact ⟨_, List.getElem?_eq_getElem hlt.1, hu.symm⟩
    cases hfind : (n'.pool_used.take n'.pool_ports.length).findIdx? fun used ↦ !used with
    | none =>
      refine ⟨rfl, .inr (.inl ⟨hnil, fun p hmem ↦ ?_, rfl, h'⟩)⟩
      obtain ⟨i, hlt, rfl⟩ := List.mem_iff_getElem.mp hmem
      have hused := h'.flag i _ (List.getElem?_eq_getElem hlt)
      have hin : decide (n'.pool_ports[i] ∈ held) ∈ n'.pool_used.take n'.pool_ports.length := by
        refine List.mem_of_getElem? (i := i) ?_
        rw [List.getElem?_take_of_lt hlt, hused]
      have hset := List.findIdx?_eq_none_iff.mp hfind _ hin
      simpa using hset
    | some i =>
      obtain ⟨hlt, hfree, -⟩ := List.findIdx?_eq_some_iff_getElem.mp hfind
      obtain ⟨p, hpi, hu⟩ := hflag i _ (List.getElem?_eq_getElem hlt)
      have hheld : p ∉ held := by
        rw [hu] at hfree
        simpa using hfree
      refine ⟨rfl, .inr (.inr ⟨p, List.mem_of_getElem? hpi, hheld, hpi, ?_⟩)⟩
      exact h'.take hports hpi hheld hn

theorem free_port (h : PoolHolds ports n held) (hports : ports.Nodup) {port : ℕ}
    (hport : port ≠ 0) :
    PoolHolds ports (n.free_port port) (held.erase port) ∧
      (n.free_port port).sessions = n.sessions := by
  rw [Node.free_port, if_neg hport]
  cases hfind : n.pool_ports.findIdx? fun p ↦ p = port with
  | none =>
    have hno : port ∉ held := by
      intro hmem
      cases hn : n.pool_parsed with
      | false =>
        rw [(h.parses hn).2.2] at hmem
        exact List.not_mem_nil hmem
      | true =>
        have hne := List.findIdx?_eq_none_iff.mp hfind port (h.parsed hn ▸ h.sub port hmem)
        simp at hne
    rw [List.erase_of_not_mem hno]
    exact ⟨h, rfl⟩
  | some i =>
    obtain ⟨hlt, hpi, -⟩ := List.findIdx?_eq_some_iff_getElem.mp hfind
    have hget := List.getElem?_eq_getElem hlt
    rw [of_decide_eq_true hpi] at hget
    have heq : n.pool_ports = ports := h.nil_or_parsed.resolve_left fun hnil ↦ by
      rw [hnil] at hlt
      exact Nat.not_lt_zero _ hlt
    rw [heq] at hget
    refine ⟨⟨fun hn ↦ ?_, h.parsed, ?_, fun j q hq ↦ ?_, h.nodup.erase port, fun q hq ↦
      h.sub q (List.mem_of_mem_erase hq)⟩, rfl⟩
    · obtain ⟨h₁, h₂, h₃⟩ := h.parses hn
      exact ⟨h₁, h₂, by rw [h₃, List.erase_nil]⟩
    · rw [List.length_set, h.used]
    · rcases eq_or_ne i j with rfl | hij
      · cases hget.symm.trans hq
        obtain ⟨hlt', -⟩ := List.getElem?_eq_some_iff.mp (h.flag i port hget)
        rw [List.getElem?_set_self hlt', decide_eq_false (h.nodup.not_mem_erase)]
      · have hqp : q ≠ port := by
          rintro rfl
          obtain ⟨hlt', -⟩ := List.getElem?_eq_some_iff.mp hget
          exact hij ((List.getElem?_inj hlt' hports).mp (hget.trans hq.symm))
        rw [List.getElem?_set_ne hij, h.flag j q hq]
        simp only [List.mem_erase_of_ne hqp]

end PoolHolds

/-! ## Every state of a node -/

/-- The ports that are held are those of the sessions. -/
def Holds (ports : List ℕ) (n : Node) : Prop := PoolHolds ports n n.fixed

namespace Holds

variable {ports : List ℕ} {n : Node} (rb : Rebalance (Text × ℕ))

theorem zero_notMem_fixed (n : Node) : 0 ∉ n.fixed := by
  simp [Node.fixed]

theorem fixed_add (n : Node) (id : Text) (port : ℕ) :
    ({ n with sessions := n.sessions.add rb id port } : Node).fixed.Perm
      (if port = 0 then n.fixed else port :: n.fixed) := by
  refine (((RbTreeMap.entries_add rb n.sessions id port).map Prod.snd).filter _).trans ?_
  rw [List.map_cons, List.filter_cons]
  split
  · next hne =>
      rw [if_neg (of_decide_eq_true hne)]
      exact List.Perm.refl _
  · next heq =>
      rw [if_pos (not_not.mp fun hne ↦ heq (decide_eq_true hne))]
      exact List.Perm.refl _

theorem fixed_del {n : Node} {id : Text} {port : ℕ} (h : n.sessions.search id = some port) :
    (if port = 0 then n.fixed else n.fixed.erase port).Perm
      ({ n with sessions := n.sessions.del rb id } : Node).fixed := by
  obtain ⟨id', -, hperm⟩ := RbTreeMap.entries_del rb h
  have hfixed := (hperm.map Prod.snd).filter fun p ↦ p ≠ 0
  rw [List.map_cons, List.filter_cons] at hfixed
  by_cases hport : port = 0
  · rw [if_pos hport]
    rw [if_neg (by simp [hport])] at hfixed
    exact hfixed
  · rw [if_neg hport]
    rw [if_pos (decide_eq_true hport)] at hfixed
    have herase := hfixed.erase port
    rw [List.erase_cons_head] at herase
    exact herase

variable (hports : ports.Nodup)
include hports

theorem close_session (h : Holds ports n) (id : Text) :
    Holds ports (n.close_session rb id).1 ∧
      ∀ port, n.sessions.search id = some port → port ∉ (n.close_session rb id).1.fixed := by
  rw [Node.close_session]
  cases hs : n.sessions.search id with
  | none => exact ⟨h, fun _ hf ↦ (Option.some_ne_none _ hf.symm).elim⟩
  | some port =>
    dsimp only
    by_cases hport : port = 0
    · have hsame : n.free_port port = n := if_pos hport
      have hperm := fixed_del rb hs
      rw [if_pos hport] at hperm
      rw [hsame]
      refine ⟨(PoolHolds.perm h hperm).with_sessions _, fun p hp ↦ ?_⟩
      cases hp
      rw [hport]
      exact zero_notMem_fixed _
    · obtain ⟨hfree, hsess⟩ := PoolHolds.free_port h hports hport
      have hperm := fixed_del rb hs
      rw [if_neg hport] at hperm
      refine ⟨(hfree.perm hperm).with_sessions _, fun p hp ↦ ?_⟩
      cases hp
      exact fun hmem ↦ h.nodup.not_mem_erase (hperm.mem_iff.mpr hmem)

variable (hmax : ports.length ≤ STUN_SERVICE_POOL_MAX)
include hmax

theorem create_session (hzero : 0 ∉ ports) (h : Holds ports n) (id : Text) (res : Resources) :
    Holds ports (n.create_session rb id res).1 := by
  rw [Node.create_session]
  cases hs : n.sessions.search id with
  | some _ => exact h
  | none =>
    dsimp only
    by_cases hmem : res.memory
    · rw [if_neg (by simp [hmem])]
      obtain ⟨hsess, hcases⟩ := PoolHolds.alloc_port h hports hmax
      generalize n.alloc_port = r at hsess hcases ⊢
      obtain ⟨n', port⟩ := r
      have hfixed : n'.fixed = n.fixed := by rw [Node.fixed, hsess, Node.fixed]
      cases port with
      | none =>
        rcases hcases with ⟨-, hf, -⟩ | ⟨-, -, -, h'⟩ | ⟨p, -, -, hf, -⟩
        · exact (Option.some_ne_none _ hf.symm).elim
        · rw [← hfixed] at h'
          exact h'
        · exact (Option.some_ne_none _ hf.symm).elim
      | some port =>
        -- with the new port the node holds what the session makes it hold
        have h' : PoolHolds ports n' (if port = 0 then n'.fixed else port :: n'.fixed) := by
          rw [hfixed]
          rcases hcases with ⟨-, hf, h'⟩ | ⟨-, -, hf, -⟩ | ⟨p, hp, -, hf, h'⟩
          · cases hf
            exact h'
          · exact (Option.some_ne_none _ hf).elim
          · cases hf
            rw [if_neg (ne_of_mem_of_not_mem hp hzero)]
            exact h'
        dsimp only
        split
        · by_cases hport : port = 0
          · rw [if_pos hport] at h'
            have hsame : n'.free_port port = n' := if_pos hport
            rw [hsame]
            exact h'
          · rw [if_neg hport] at h'
            obtain ⟨hfree, hsame⟩ := h'.free_port hports hport
            rw [List.erase_cons_head] at hfree
            rw [Holds, Node.fixed, hsame]
            exact hfree
        · have hadd : Holds ports
              { n' with sessions := n'.sessions.add rb (id.take 31) port } :=
            (h'.perm (fixed_add rb n' (id.take 31) port).symm).with_sessions _
          split
          · exact hadd
          · exact (close_session rb hports hadd id).1
    · rw [if_pos (by simp [hmem])]
      exact h

theorem pooled (h : Holds ports n) : Pooled ports rb n := by
  obtain ⟨-, hcases⟩ := PoolHolds.alloc_port h hports hmax
  refine ⟨h.nodup, h.sub, ?_, ?_, (close_session rb hports h · |>.2)⟩
  · rcases hcases with ⟨hnil, hf, -⟩ | ⟨hne, hall, hf, -⟩ | ⟨p, hp, hfree, hf, -⟩
    · rw [hf]
      exact iff_of_false (Option.some_ne_none _) fun hall ↦ hall.1 hnil
    · exact iff_of_true hf ⟨hne, hall⟩
    · rw [hf]
      exact iff_of_false (Option.some_ne_none _) fun hall ↦ hfree (hall.2 p hp)
  · intro q hq
    rcases hcases with ⟨hnil, hf, -⟩ | ⟨-, -, hf, -⟩ | ⟨p, hp, hfree, hf, -⟩
    · rw [if_pos hnil]
      exact (Option.some.inj (hf.symm.trans hq)).symm
    · exact (Option.some_ne_none _ (hq.symm.trans hf)).elim
    · cases hf.symm.trans hq
      rw [if_neg (List.ne_nil_of_mem hp)]
      exact ⟨hp, hfree⟩

end Holds

theorem Holds.new {text : Text} (h : Plain text) : Holds (configured text) (Node.new text) where
  parses _ := ⟨parse_ports_eq h, rfl, rfl⟩
  parsed hf := (Bool.false_ne_true hf).elim
  used := List.length_replicate
  flag i p hp := by
    obtain ⟨hlt, -⟩ := List.getElem?_eq_some_iff.mp hp
    have hlt' : i < STUN_SERVICE_POOL_MAX := hlt.trans_le (configured_length_le text)
    exact (List.getElem?_replicate_of_lt hlt').trans
      (congrArg some (decide_eq_false List.not_mem_nil).symm)
  nodup := List.nodup_nil
  sub p hp := (List.not_mem_nil hp).elim

/-- Whatever sessions are created and closed, the ports stay in order. -/
theorem pooled_of_plain {text : Text} (h : Plain text) (rb : Rebalance (Text × ℕ))
    (calls : List Call) :
    Pooled (configured text) rb (Run.final (Node.call rb) (Node.new text) calls) := by
  have hlen := configured_length_le text
  refine Holds.pooled rb h.distinct hlen ?_
  refine (Run.Steps.of_invariant (Q := fun _ _ _ ↦ True) (R := fun _ _ _ ↦ True) (Holds.new h)
    (fun n c hn _ ↦ ⟨?_, trivial⟩) (Run.Steps.of_forall (fun _ _ _ ↦ trivial) _ calls)).1
  cases c with
  | create id res =>
    exact Holds.create_session rb h.distinct hlen (zero_notMem_configured text) hn id res
  | close id => exact (Holds.close_session rb h.distinct hn id).1

theorem pooled_of_plain_range : Plain (ascii "12346-12350") ∧
    Pooled (configured (ascii "12346-12350")) (.small _)
      (Run.final (Node.call (.small _)) (Node.new (ascii "12346-12350"))
        [.create [97] ⟨true, true, true, true⟩, .close [97]]) :=
  have h : Plain (ascii "12346-12350") := by decide
  ⟨h, pooled_of_plain h _ _⟩

/-- A port that is configured twice is given to two sessions. -/
theorem not_pooled : ¬ ∀ (text : Text) (rb : Rebalance (Text × ℕ)) (calls : List Call),
    Pooled (configured text) rb (Run.final (Node.call rb) (Node.new text) calls) := by
  intro h
  have hdistinct := (h (ascii "5000,5000") (.small _)
    [.create [97] ⟨true, true, true, true⟩, .create [98] ⟨true, true, true, true⟩]).distinct
  revert hdistinct
  decide

end Libobject.Stun.Ports
