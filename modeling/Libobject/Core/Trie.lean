import Libobject.Lib.Refine
import Libobject.Lib.Residual
import Libobject.Lib.Scan
import Mathlib.Data.Int.Notation

/-!
# The trie

Every node has a table of its children, one place for each of the characters that there were when
the trie was made, and counts the words that pass through it and those that end in it. The
counters are C integers; memory that is allocated for a node holds anything, and `pass` is not
initialised. A place outside the table and a table that was freed are undefined, and so is a set of
characters that is written behind its buffer: as many bytes are asked for as it has characters, one
too few for its end, and the allocator gives them `room`.
-/

namespace Libobject

structure TrieNode where
  «end» : ℤ
  pass : ℤ
  table : List (Option TrieNode)

structure Trie where
  root : TrieNode
  node_count : ℕ
  char_set : Text
  max_len : ℕ

namespace Trie

/-- `++n` of a C integer. -/
def incr (n : ℤ) : Option ℤ := if n < 2147483647 then some (n + 1) else none

/-- `--n` of a C integer. -/
def decr (n : ℤ) : Option ℤ := if -2147483648 < n then some (n - 1) else none

/-- `garbage` is what the memory held where `pass` is now. -/
def new_node (node_count : ℕ) (garbage : ℤ) : TrieNode :=
  ⟨0, garbage, List.replicate node_count none⟩

def construct (room : ℕ → ℕ) (garbage : ℤ) : Option Trie :=
  let char_set := Scan.ascii "abcdefghijklmnopqrstuvwxyz"
  let len := char_set.length
  if len < room len then some ⟨new_node len garbage, len, char_set, room len⟩ else none

def set_char_set (room : ℕ → ℕ) (t : Trie) (word : Text) : Option Trie :=
  let max_len := if t.char_set.length < word.length then room word.length else t.max_len
  if word.length < max_len then some { t with char_set := word, max_len := max_len } else none

/-- A new trie with a set of characters. -/
def made (room : ℕ → ℕ) (garbage : ℤ) (char_set : Text) : Option Trie :=
  (construct room garbage).bind fun t ↦ t.set_char_set room char_set

def get_char_index (char_set : Text) (c : UInt8) : Option ℕ := char_set.findIdx? fun d ↦ d = c

/-- The loop of `__insert` from a node on. An illegal character ends it where it is; `garbage` is
for the nodes that are made, by their depth. -/
def insertFrom (char_set : Text) (node_count : ℕ) :
    Text → (ℕ → ℤ) → TrieNode → Option (TrieNode × ℤ)
  | [], _, node => (incr node.end).map fun n ↦ ({ node with «end» := n }, n)
  | c :: word, garbage, node =>
    match get_char_index char_set c with
    | none => some (node, -1)
    | some index => do
      let entry ← node.table[index]?
      let child := entry.getD (new_node node_count (garbage 0))
      let pass ← incr child.pass
      let (child, ret) ← insertFrom char_set node_count word (fun i ↦ garbage (i + 1))
        { child with pass := pass }
      return ({ node with table := node.table.set index (some child) }, ret)

def insert (t : Trie) (word : Text) (garbage : ℕ → ℤ) : Option (Trie × ℤ) :=
  (insertFrom t.char_set t.node_count word garbage t.root).map fun r ↦
    ({ t with root := r.1 }, r.2)

/-- The loop of `__search` and of `__search_prefix`: the node they end at, or what they return
instead. -/
def walk (char_set : Text) : Text → TrieNode → Option (Except ℤ TrieNode)
  | [], node => some (.ok node)
  | c :: word, node =>
    match get_char_index char_set c with
    | none => some (.error (-1))
    | some index =>
      match node.table[index]? with
      | none => none
      | some none => some (.error 0)
      | some (some child) => walk char_set word child

/-- The count at the end of the walk. -/
def read (count : TrieNode → ℤ) : Except ℤ TrieNode → ℤ
  | .ok node => count node
  | .error ret => ret

def search (t : Trie) (word : Text) : Option ℤ := (walk t.char_set word t.root).map (read (·.end))

def search_prefix (t : Trie) (word : Text) : Option ℤ :=
  (walk t.char_set word t.root).map (read (·.pass))

/-- The loop of `__delete` from a node on. Where no word passes any more, the table of the node is
freed, and then a place in it is cleared and the loop goes on in it. -/
def deleteFrom (char_set : Text) : Text → TrieNode → Option (TrieNode × ℤ)
  | [], node => (decr node.end).map fun n ↦ ({ node with «end» := n }, n)
  | c :: word, node =>
    match get_char_index char_set c with
    | none => some (node, -1)
    | some index =>
      match node.table[index]? with
      | none => none
      | some none => some (node, 0)
      | some (some child) => do
        let pass ← decr child.pass
        if 0 < pass then
          let (child, ret) ← deleteFrom char_set word { child with pass := pass }
          return ({ node with table := node.table.set index (some child) }, ret)
        else none

def delete (t : Trie) (word : Text) : Option (Trie × ℤ) :=
  (deleteFrom t.char_set word t.root).map fun r ↦ ({ t with root := r.1 }, r.2)

inductive Call
  | insert (word : Text) (garbage : ℕ → ℤ)
  | search (word : Text)
  | search_prefix (word : Text)
  | delete (word : Text)

def call (t : Trie) : Call → Option (Trie × ℤ)
  | .insert word garbage => t.insert word garbage
  | .search word => (t.search word).map fun r ↦ (t, r)
  | Call.search_prefix word => ( t.search_prefix word).map fun r ↦ (t, r)
  | .delete word => t.delete word

/-- The characters of the word are in the set. -/
def Legal (char_set word : Text) : Prop := ∀ c ∈ word, c ∈ char_set

instance decidableLegal (char_set word : Text) : Decidable (Legal char_set word) :=
  inferInstanceAs (Decidable (∀ c ∈ word, c ∈ char_set))

/-- The trie as a bag of words. What is returned for a word that is not legal, and for the
deletion of a word that is not there, only tells that nothing was found. -/
def bag (char_set : Text) : Spec (List Text) Call ℤ where
  ok ws
    | .insert word _, r => r = if Legal char_set word then (ws.count word + 1 : ℤ) else -1
    | .search word, r => if Legal char_set word then r = ws.count word else r ≤ 0
    | Call.search_prefix word, r =>
      if Legal char_set word then r = ws.countP (fun w ↦ word <+: w) else r ≤ 0
    | .delete word, r => if word ∈ ws then r = (ws.count word : ℤ) - 1 else r ≤ 0
  next ws
    | .insert word _, _ => if Legal char_set word then word :: ws else ws
    | .delete word, _ => ws.erase word
    | .search _, _ | Call.search_prefix _, _ => ws

/-- The word is legal, its characters have a place in the tables, the memory for its new nodes
holds zeros and no counter is at its end. -/
def Insertable (char_set : Text) (node_count : ℕ) : Text → (ℕ → ℤ) → TrieNode → Prop
  | [], _, node => node.end < 2147483647
  | c :: word, garbage, node =>
    match get_char_index char_set c with
    | none => False
    | some index =>
      match node.table[index]? with
      | none => False
      | some none =>
        garbage 0 = 0 ∧ Insertable char_set node_count word (fun i ↦ garbage (i + 1))
          (new_node node_count 0)
      | some (some child) =>
        child.pass < 2147483647 ∧
          Insertable char_set node_count word (fun i ↦ garbage (i + 1)) child

/-- The word is there, and it is not the last one at any node that it passes. -/
def Deletable (char_set : Text) : Text → TrieNode → Prop
  | [], node => 0 < node.end
  | c :: word, node =>
    match get_char_index char_set c with
    | none => False
    | some index =>
      match node.table[index]? with
      | some (some child) => 1 < child.pass ∧ Deletable char_set word child
      | _ => False

/-- The first character ends the loop before anything is changed: it is not legal or no word
starts with it. -/
def Refused (t : Trie) : Text → Prop
  | [] => False
  | c :: _ =>
    match get_char_index t.char_set c with
    | none => True
    | some index => t.root.table[index]?.any (·.isNone)

/-- A word that is inserted or deleted is so as a whole or not at all; the prefix of no characters
is not asked for; what is searched has its place in the tables. -/
def Regular (t : Trie) : Call → Prop
  | .insert word garbage =>
    word.head?.any (fun c ↦ (get_char_index t.char_set c).isNone) ∨
      Insertable t.char_set t.node_count word garbage t.root
  | .search word => (walk t.char_set word t.root).isSome
  | Call.search_prefix word => word ≠ [] ∧ (walk t.char_set word t.root).isSome
  | .delete word => Refused t word ∨ Deletable t.char_set word t.root

open Residual

theorem get_char_index_injective {char_set : Text} {c d : UInt8} {i : ℕ}
    (hc : get_char_index char_set c = some i)
    (hd : get_char_index char_set d = some i) : c = d := by
  rw [get_char_index, List.findIdx?_eq_some_iff_getElem] at hc hd
  obtain ⟨hlt, hc, -⟩ := hc
  obtain ⟨hlt', hd, -⟩ := hd
  exact (of_decide_eq_true hc).symm.trans (of_decide_eq_true hd)

theorem get_char_index_eq_none {char_set : Text} {c : UInt8} :
    get_char_index char_set c = none ↔ c ∉ char_set := by
  rw [get_char_index, List.findIdx?_eq_none_iff]
  constructor
  · intro h hc
    simpa using h c hc
  · rintro h d hd
    simp only [decide_eq_false_iff_not]
    rintro rfl
    exact h hd

/-- The words of the bag, from the node on: they are counted where they end, and the children
stand for the residuals. -/
inductive Stores (char_set : Text) (node_count : ℕ) : TrieNode → List Text → Prop
  | intro {n : TrieNode} {ws : List Text} (length_table : n.table.length = node_count)
      (end_eq : n.end = ws.count [])
      (illegal : ∀ c, get_char_index char_set c = none → residual c ws = [])
      (missing : ∀ c i, get_char_index char_set c = some i →
        (∀ child, n.table[i]? ≠ some (some child)) → residual c ws = [])
      (pass_eq : ∀ c i child, get_char_index char_set c = some i →
        n.table[i]? = some (some child) → child.pass = (residual c ws).length)
      (stores : ∀ c i child, get_char_index char_set c = some i →
        n.table[i]? = some (some child) → Stores char_set node_count child (residual c ws)) :
      Stores char_set node_count n ws

variable {char_set : Text} {node_count : ℕ} {n : TrieNode} {ws : List Text}

theorem stores_new_node (garbage : ℤ) :
    Stores char_set node_count (new_node node_count garbage) [] := by
  have hnone : ∀ (i : ℕ) (child : TrieNode),
      (new_node node_count garbage).table[i]? ≠ some (some child) := by
    intro i child h
    rw [new_node, List.getElem?_replicate] at h
    split_ifs at h
    cases h
  refine .intro List.length_replicate rfl (fun _ _ ↦ rfl) (fun _ _ _ _ ↦ rfl) ?_ ?_
  · intro c i child _ h
    exact absurd h (hnone i child)
  · intro c i child _ h
    exact absurd h (hnone i child)

namespace Stores

theorem set_pass (hn : Stores char_set node_count n ws) (pass : ℤ) :
    Stores char_set node_count { n with pass := pass } ws := by
  cases hn with
  | intro hlen hend hillegal hmissing hpass hstores =>
    exact .intro hlen hend hillegal hmissing hpass hstores

theorem set_end (hn : Stores char_set node_count n ws) {ws' : List Text} {k : ℤ}
    (hk : k = ws'.count []) (hother : ∀ c, residual c ws' = residual c ws) :
    Stores char_set node_count { n with «end» := k } ws' := by
  cases hn with
  | intro hlen hend hillegal hmissing hpass hstores =>
    refine .intro hlen hk ?_ ?_ ?_ ?_
    · intro c hc
      rw [hother, hillegal c hc]
    · intro c i hc hnone
      rw [hother, hmissing c i hc hnone]
    · intro c i child hc hchild
      rw [hother, hpass c i child hc hchild]
    · intro c i child hc hchild
      rw [hother]
      exact hstores c i child hc hchild

theorem set_child (hn : Stores char_set node_count n ws) {ws' : List Text} {c : UInt8} {i : ℕ}
    (hc : get_char_index char_set c = some i) (hi : i < n.table.length) {child : TrieNode}
    (hchild : Stores char_set node_count child (residual c ws'))
    (hpass : child.pass = (residual c ws').length)
    (hother : ∀ d, c ≠ d → residual d ws' = residual d ws)
    (hcount : ws'.count [] = ws.count []) :
    Stores char_set node_count { n with table := n.table.set i (some child) } ws' := by
  cases hn with
  | intro hlen hend hillegal hmissing hpasses hstores =>
    have hself : (n.table.set i (some child))[i]? = some (some child) :=
      List.getElem?_set_self hi
    have hset : ∀ d j, get_char_index char_set d = some j → c ≠ d →
        (n.table.set i (some child))[j]? = n.table[j]? := by
      intro d j hd hne
      apply List.getElem?_set_ne
      rintro rfl
      exact hne (get_char_index_injective hc hd)
    refine .intro (by rw [List.length_set]; exact hlen) (by rw [hcount]; exact hend) ?_ ?_ ?_ ?_
    · intro d hd
      have hne : c ≠ d := by
        rintro rfl
        rw [hd] at hc
        cases hc
      rw [hother d hne, hillegal d hd]
    · intro d j hd hnone
      by_cases hne : c = d
      · subst hne
        cases hc.symm.trans hd
        exact absurd hself (hnone child)
      · rw [hother d hne]
        simp only [hset d j hd hne] at hnone
        exact hmissing d j hd hnone
    · intro d j child' hd hchild'
      by_cases hne : c = d
      · subst hne
        cases hc.symm.trans hd
        cases hself.symm.trans hchild'
        exact hpass
      · rw [hset d j hd hne] at hchild'
        rw [hother d hne, hpasses d j child' hd hchild']
    · intro d j child' hd hchild'
      by_cases hne : c = d
      · subst hne
        cases hc.symm.trans hd
        cases hself.symm.trans hchild'
        exact hchild
      · rw [hset d j hd hne] at hchild'
        rw [hother d hne]
        exact hstores d j child' hd hchild'

theorem insertFrom {word : Text} (hn : Stores char_set node_count n ws) {garbage : ℕ → ℤ}
    (hins : Insertable char_set node_count word garbage n) :
    ∃ n', Trie.insertFrom char_set node_count word garbage n =
        some (n', (ws.count word : ℤ) + 1) ∧
      Stores char_set node_count n' (word :: ws) ∧ n'.pass = n.pass ∧ Legal char_set word := by
  induction word generalizing n ws garbage with
  | nil =>
    have hend : n.end = ws.count [] := by
      cases hn with
      | intro _ hend _ _ _ _ => exact hend
    have hmore : n.end + 1 = (ws.count [] + 1 : ℤ) := by rw [hend]
    have hint : incr n.end = some (ws.count [] + 1 : ℤ) := by
      rw [Insertable] at hins
      rw [incr, if_pos hins, hmore]
    refine ⟨{ n with «end» := ws.count [] + 1 }, ?_, hn.set_end ?_ (fun _ ↦ rfl), rfl, ?_⟩
    · rw [Trie.insertFrom, hint, Option.map_some]
    · rw [List.count_cons_self]
      push_cast
      rfl
    · exact fun _ h ↦ absurd h List.not_mem_nil
  | cons c word ih =>
    rw [Insertable] at hins
    cases hc : get_char_index char_set c with
    | none => simp [hc] at hins
    | some i =>
      have hmem : c ∈ char_set := by
        by_contra hnot
        rw [get_char_index_eq_none.mpr hnot] at hc
        cases hc
      -- the child, old or new, stands for the words behind the letter
      obtain ⟨entry, child, hentry, hget, hi, hfits, hins', hchild, hpass⟩ :
          ∃ entry child, n.table[i]? = some entry ∧
            entry.getD (new_node node_count (garbage 0)) = child ∧ i < n.table.length ∧
            child.pass < 2147483647 ∧
            Insertable char_set node_count word (fun i ↦ garbage (i + 1)) child ∧
            Stores char_set node_count child (residual c ws) ∧
            child.pass = (residual c ws).length := by
        cases hn with
        | intro hlen hend hillegal hmissing hpass hstores =>
          cases hentry : n.table[i]? with
          | none => simp [hc, hentry] at hins
          | some entry =>
            have hi := (List.getElem?_eq_some_iff.mp hentry).1
            cases entry with
            | none =>
              simp only [hc, hentry] at hins
              have hempty : residual c ws = [] := by
                apply hmissing c i hc
                intro child h
                rw [hentry] at h
                cases h
              refine ⟨none, new_node node_count 0, rfl, ?_, hi, ?_, hins.2, ?_, ?_⟩
              · rw [Option.getD_none, hins.1]
              · change (0 : ℤ) < 2147483647
                decide
              · rw [hempty]
                exact stores_new_node 0
              · rw [hempty]
                rfl
            | some child =>
              simp only [hc, hentry] at hins
              exact ⟨some child, child, rfl, rfl, hi, hins.1, hins.2,
                hstores c i child hc hentry, hpass c i child hc hentry⟩
      have hint : incr child.pass = some (child.pass + 1) := by
        rw [incr, if_pos hfits]
      have hins'' : Insertable char_set node_count word (fun i ↦ garbage (i + 1))
          { child with pass := child.pass + 1 } := by
        cases word <;> exact hins'
      obtain ⟨child', hrec, hchild', hpass', hlegal⟩ := ih (hchild.set_pass _) hins''
      refine ⟨{ n with table := n.table.set i (some child') }, ?_, ?_, rfl, ?_⟩
      · simp only [Trie.insertFrom, hc, hentry, Option.bind_eq_bind, Option.bind_some, hget, hint,
          hrec, count_cons]
        rfl
      · refine hn.set_child hc hi (by rwa [residual_cons_self]) ?_ ?_ ?_
        · rw [hpass', residual_cons_self, hpass, List.length_cons]
          push_cast
          rfl
        · exact fun d hne ↦ residual_cons_of_ne hne
        · exact List.count_cons_of_ne (List.cons_ne_nil c word)
      · intro d hd
        rcases List.mem_cons.mp hd with rfl | hd
        · exact hmem
        · exact hlegal d hd

theorem deleteFrom {word : Text} (hn : Stores char_set node_count n ws)
    (hdel : Deletable char_set word n) :
    ∃ n', Trie.deleteFrom char_set word n =
        some (n', (ws.count word : ℤ) - 1) ∧
      Stores char_set node_count n' (ws.erase word) ∧ n'.pass = n.pass ∧ word ∈ ws := by
  induction word generalizing n ws with
  | nil =>
    have hend : n.end = ws.count [] := by
      cases hn with
      | intro _ hend _ _ _ _ => exact hend
    rw [Deletable] at hdel
    have hmem : [] ∈ ws := List.count_pos_iff.mp (by omega)
    have hint : decr n.end = some ((ws.count [] : ℤ) - 1) := by
      rw [decr, if_pos (by omega), hend]
    refine ⟨{ n with «end» := ws.count [] - 1 }, ?_, ?_, rfl, hmem⟩
    · rw [Trie.deleteFrom, hint, Option.map_some]
    · refine hn.set_end ?_ fun c ↦ residual_erase_nil
      rw [List.count_erase_self]
      omega
  | cons c word ih =>
    rw [Deletable] at hdel
    cases hc : get_char_index char_set c with
    | none => simp [hc] at hdel
    | some i =>
      cases hentry : n.table[i]? with
      | none => simp [hc, hentry] at hdel
      | some entry =>
        have hi := (List.getElem?_eq_some_iff.mp hentry).1
        cases entry with
        | none => simp [hc, hentry] at hdel
        | some child =>
          simp only [hc, hentry] at hdel
          obtain ⟨hmore, hdel⟩ := hdel
          obtain ⟨hpass, hchild⟩ : child.pass = (residual c ws).length ∧
              Stores char_set node_count child (residual c ws) := by
            cases hn with
            | intro _ _ _ _ hpass hstores =>
              exact ⟨hpass c i child hc hentry, hstores c i child hc hentry⟩
          have hint : decr child.pass = some (child.pass - 1) := by
            rw [decr, if_pos (by omega)]
          have hdel' : Deletable char_set word { child with pass := child.pass - 1 } := by
            cases word <;> exact hdel
          obtain ⟨child', hrec, hchild', hpass', hmem⟩ := ih (hchild.set_pass _) hdel'
          refine ⟨{ n with table := n.table.set i (some child') }, ?_, ?_, rfl,
            mem_residual.mp hmem⟩
          · simp only [Trie.deleteFrom, hc, hentry, Option.bind_eq_bind, Option.bind_some,
              hint, if_pos (show 0 < child.pass - 1 by omega), hrec, count_cons]
            rfl
          · refine hn.set_child hc hi (by rwa [residual_erase_self]) ?_ ?_ ?_
            · have hpos := List.length_pos_of_mem hmem
              rw [hpass', residual_erase_self, List.length_erase_of_mem hmem]
              change child.pass - 1 = _
              omega
            · exact fun d hne ↦ residual_erase_of_ne hne
            · exact List.count_erase_of_ne (List.cons_ne_nil c word).symm

theorem search {word : Text} (hn : Stores char_set node_count n ws) {node : TrieNode}
    (hwalk : walk char_set word n = some (.ok node)) :
    Legal char_set word ∧ node.end = ws.count word ∧
      (n.pass = ws.length ∨ word ≠ [] → node.pass = ws.countP fun w ↦ word <+: w) := by
  induction word generalizing n ws with
  | nil =>
    cases hwalk
    cases hn with
    | intro _ hend _ _ _ _ =>
      refine ⟨fun _ h ↦ absurd h List.not_mem_nil, hend, ?_⟩
      intro h
      rcases h with h | h
      · simpa using h
      · exact absurd rfl h
  | cons c word ih =>
    rw [walk] at hwalk
    cases hc : get_char_index char_set c with
    | none => simp [hc] at hwalk
    | some i =>
      have hmem : c ∈ char_set := by
        by_contra hnot
        rw [get_char_index_eq_none.mpr hnot] at hc
        cases hc
      cases hentry : n.table[i]? with
      | none => simp [hc, hentry] at hwalk
      | some entry =>
        cases entry with
        | none => simp [hc, hentry] at hwalk
        | some child =>
          simp only [hc, hentry] at hwalk
          cases hn with
          | intro _ _ _ _ hpass hstores =>
            obtain ⟨hlegal, hend, hcount⟩ := ih (hstores c i child hc hentry) hwalk
            refine ⟨?_, ?_, ?_⟩
            · intro d hd
              rcases List.mem_cons.mp hd with rfl | hd
              · exact hmem
              · exact hlegal d hd
            · rw [hend, count_cons]
            · intro _
              rw [hcount (.inl (hpass c i child hc hentry)), countP_prefix_cons]

theorem search_absent {word : Text} (hn : Stores char_set node_count n ws) {ret : ℤ}
    (hwalk : walk char_set word n = some (.error ret)) :
    ret ≤ 0 ∧ (Legal char_set word → ret = 0 ∧ ws.countP (fun w ↦ word <+: w) = 0) := by
  induction word generalizing n ws with
  | nil => cases hwalk
  | cons c word ih =>
    rw [walk] at hwalk
    cases hc : get_char_index char_set c with
    | none =>
      simp only [hc] at hwalk
      cases hwalk
      refine ⟨by decide, ?_⟩
      intro hlegal
      exact absurd (hlegal c List.mem_cons_self) (get_char_index_eq_none.mp hc)
    | some i =>
      cases hn with
      | intro _ _ _ hmissing _ hstores =>
        cases hentry : n.table[i]? with
        | none => simp [hc, hentry] at hwalk
        | some entry =>
          cases entry with
          | none =>
            simp only [hc, hentry] at hwalk
            cases hwalk
            have hempty : residual c ws = [] := by
              apply hmissing c i hc
              intro child h
              rw [hentry] at h
              cases h
            refine ⟨le_rfl, fun _ ↦ ⟨rfl, ?_⟩⟩
            rw [countP_prefix_cons, hempty]
            rfl
          | some child =>
            simp only [hc, hentry] at hwalk
            obtain ⟨hle, habsent⟩ := ih (hstores c i child hc hentry) hwalk
            refine ⟨hle, ?_⟩
            intro hlegal
            obtain ⟨hret, hcount⟩ :=
              habsent fun d hd ↦ hlegal d (List.mem_cons_of_mem c hd)
            refine ⟨hret, ?_⟩
            rw [countP_prefix_cons, hcount]

end Stores

/-- The trie holds the words of the bag. -/
def Holds (char_set : Text) (t : Trie) (ws : List Text) : Prop :=
  t.char_set = char_set ∧ Stores char_set t.node_count t.root ws

theorem holds_made {room : ℕ → ℕ} {garbage : ℤ} {char_set : Text} {t : Trie}
    (h : made room garbage char_set = some t) : Holds char_set t [] := by
  obtain ⟨t', hconstruct, hset⟩ := Option.bind_eq_some_iff.mp h
  rw [construct] at hconstruct
  rw [set_char_set] at hset
  split_ifs at hconstruct
  split_ifs at hset
  all_goals
    cases hconstruct
    cases hset
    exact ⟨rfl, stores_new_node garbage⟩

theorem count_le_countP (word : Text) (ws : List Text) :
    ws.count word ≤ ws.countP fun w ↦ word <+: w := by
  apply List.countP_mono_left
  intro w _ h
  rw [eq_of_beq h]
  exact decide_eq_true (List.prefix_refl word)

section Refinement

variable {t : Trie}

theorem Holds.search_prefix (ht : Holds char_set t ws) {word : Text} (hne : word ≠ [])
    (hwalk : (walk t.char_set word t.root).isSome) :
    ∃ r, t.search_prefix word = some r ∧ (bag char_set).ok ws ( Call.search_prefix word) r := by
  obtain ⟨rfl, hstores⟩ := ht
  obtain ⟨r, hr⟩ := Option.isSome_iff_exists.mp hwalk
  refine ⟨read (·.pass) r, by rw [ Trie.search_prefix, hr, Option.map_some], ?_⟩
  cases r with
  | ok node =>
    obtain ⟨hlegal, -, hcount⟩ := hstores.search hr
    simp only [bag, if_pos hlegal]
    exact hcount (.inr hne)
  | error ret =>
    obtain ⟨hle, habsent⟩ := hstores.search_absent hr
    simp only [bag]
    split_ifs with hlegal
    · obtain ⟨hret, hcount⟩ := habsent hlegal
      rw [hcount]
      exact hret
    · exact hle

theorem Holds.search (ht : Holds char_set t ws) {word : Text}
    (hwalk : (walk t.char_set word t.root).isSome) :
    ∃ r, t.search word = some r ∧ (bag char_set).ok ws (.search word) r := by
  obtain ⟨rfl, hstores⟩ := ht
  obtain ⟨r, hr⟩ := Option.isSome_iff_exists.mp hwalk
  refine ⟨read (·.end) r, by rw [Trie.search, hr, Option.map_some], ?_⟩
  cases r with
  | ok node =>
    obtain ⟨hlegal, hend, -⟩ := hstores.search hr
    simp only [bag, if_pos hlegal]
    exact hend
  | error ret =>
    obtain ⟨hle, habsent⟩ := hstores.search_absent hr
    simp only [bag]
    split_ifs with hlegal
    · obtain ⟨hret, hcount⟩ := habsent hlegal
      have hno : ws.count word = 0 := by
        have hle := count_le_countP word ws
        omega
      rw [hno]
      exact hret
    · exact hle

theorem Holds.delete_refused (ht : Holds char_set t ws) {word : Text} (href : Refused t word) :
    ∃ r, t.delete word = some (t, r) ∧ r ≤ 0 ∧ word ∉ ws := by
  obtain ⟨rfl, hstores⟩ := ht
  cases word with
  | nil => exact absurd href id
  | cons c word =>
    rw [Refused] at href
    rw [← Residual.mem_residual]
    cases hstores with
    | intro _ _ hillegal hmissing _ _ =>
      cases hc : get_char_index t.char_set c with
      | none =>
        refine ⟨-1, by simp [Trie.delete, Trie.deleteFrom, hc], by decide, ?_⟩
        rw [hillegal c hc]
        exact List.not_mem_nil
      | some i =>
        simp only [hc] at href
        cases hentry : t.root.table[i]? with
        | none => simp [hentry] at href
        | some entry =>
          cases entry with
          | some child => simp [hentry] at href
          | none =>
            refine ⟨0, by simp [Trie.delete, Trie.deleteFrom, hc, hentry], le_rfl, ?_⟩
            rw [hmissing c i hc (by simp [hentry])]
            exact List.not_mem_nil

theorem Holds.call (ht : Holds char_set t ws) (c : Call) (hreg : Regular t c) :
    ∃ t' o, t.call c = some (t', o) ∧ (bag char_set).ok ws c o ∧
      Holds char_set t' ((bag char_set).next ws c o) := by
  have hset := ht.1
  cases c with
  | insert word garbage =>
    rcases hreg with hfirst | hins
    · cases word with
      | nil => simp at hfirst
      | cons c word =>
        have hc : get_char_index t.char_set c = none := by simpa using hfirst
        have hillegal : ¬Legal char_set (c :: word) := by
          intro hlegal
          rw [hset] at hc
          exact get_char_index_eq_none.mp hc (hlegal c List.mem_cons_self)
        refine ⟨t, -1, ?_, ?_, ?_⟩
        · simp [Trie.call, Trie.insert, Trie.insertFrom, hc]
        · simp only [bag, if_neg hillegal]
        · simpa only [bag, if_neg hillegal] using ht
    · rw [hset] at hins
      obtain ⟨n, hinsert, hn, -, hlegal⟩ := ht.2.insertFrom hins
      rw [← hset] at hinsert
      refine ⟨{ t with root := n }, (ws.count word : ℤ) + 1, ?_, ?_, ?_⟩
      · rw [Trie.call, Trie.insert, hinsert, Option.map_some]
      · simp only [bag, if_pos hlegal]
      · simp only [bag, if_pos hlegal]
        exact ⟨hset, hn⟩
  | search word =>
    obtain ⟨r, hsearch, hok⟩ := ht.search hreg
    exact ⟨t, r, by rw [Trie.call, hsearch, Option.map_some], hok, ht⟩
  | search_prefix word =>
    obtain ⟨r, hsearch, hok⟩ := ht.search_prefix hreg.1 hreg.2
    exact ⟨t, r, by rw [Trie.call, hsearch, Option.map_some], hok, ht⟩
  | delete word =>
    rcases hreg with href | hdel
    · obtain ⟨r, hdelete, hle, hnot⟩ := ht.delete_refused href
      refine ⟨t, r, hdelete, ?_, ?_⟩
      · simp only [bag, if_neg hnot]
        exact hle
      · simp only [bag, List.erase_of_not_mem hnot]
        exact ht
    · rw [hset] at hdel
      obtain ⟨n, hdelete, hn, -, hmem⟩ := ht.2.deleteFrom hdel
      rw [← hset] at hdelete
      refine ⟨{ t with root := n }, (ws.count word : ℤ) - 1, ?_, ?_, ⟨hset, hn⟩⟩
      · rw [Trie.call, Trie.delete, hdelete, Option.map_some]
      · simp only [bag, if_pos hmem]

/-- The counters are those of the bag of the words that were inserted and not deleted, and no
table is freed. -/
theorem refines_bag {room : ℕ → ℕ} {garbage : ℤ} {char_set : Text} {t₀ : Trie}
    (hmade : made room garbage char_set = some t₀) {cs : List Call}
    (hrun : Refine.Within call (bag char_set) Regular t₀ [] cs) :
    (∃ t ws, Run.final (Refine.step call (bag char_set)) (some t₀, []) cs = (some t, ws) ∧
        Holds char_set t ws) ∧
      Refine.Refines call (bag char_set) t₀ [] cs :=
  Refine.refines_of_simulation (I := Holds char_set) (fun _ _ c ht hreg ↦ ht.call c hreg)
    (holds_made hmade) hrun

end Refinement

instance decidableInsertable (char_set : Text) (node_count : ℕ) :
    ∀ (word : Text) (garbage : ℕ → ℤ) (node : TrieNode),
      Decidable (Insertable char_set node_count word garbage node)
  | [], _, node => inferInstanceAs (Decidable (node.end < 2147483647))
  | _ :: word, _, _ => by
    have ih := decidableInsertable char_set node_count word
    unfold Insertable
    repeat' split
    all_goals infer_instance

instance decidableDeletable (char_set : Text) :
    ∀ (word : Text) (node : TrieNode), Decidable (Deletable char_set word node)
  | [], node => inferInstanceAs (Decidable (0 < node.end))
  | _ :: word, _ => by
    have ih := decidableDeletable char_set word
    unfold Deletable
    repeat' split
    all_goals infer_instance

instance decidableRefused (t : Trie) (word : Text) : Decidable (Refused t word) := by
  unfold Refused
  repeat' split
  all_goals infer_instance

instance decidableRegular (t : Trie) (c : Call) : Decidable (Regular t c) := by
  unfold Regular
  split <;> infer_instance

instance decidableOk (char_set : Text) (ws : List Text) (c : Call) (o : ℤ) :
    Decidable ((bag char_set).ok ws c o) := by
  unfold bag
  dsimp only
  split <;> infer_instance

/-- With blocks of multiples of eight bytes. -/
def abc : Trie where
  root := new_node 26 7
  node_count := 26
  char_set := Scan.ascii "abc"
  max_len := 32

theorem refines_bag_shared_prefix :
    (∃ t ws, Run.final (Refine.step call (bag (Scan.ascii "abc"))) (some abc, [])
        [.insert (Scan.ascii "ab") (fun _ ↦ 0), .insert (Scan.ascii "abc") (fun _ ↦ 0),
          .insert (Scan.ascii "ab") (fun _ ↦ 0), .insert (Scan.ascii "xa") (fun _ ↦ 0),
          .delete (Scan.ascii "ab"), .delete (Scan.ascii "b"), .search (Scan.ascii "ab"),
          Call.search_prefix (Scan.ascii "a")] = (some t, ws) ∧ Holds (Scan.ascii "abc") t ws) ∧
      Refine.Refines call (bag (Scan.ascii "abc")) abc []
        [.insert (Scan.ascii "ab") (fun _ ↦ 0), .insert (Scan.ascii "abc") (fun _ ↦ 0),
          .insert (Scan.ascii "ab") (fun _ ↦ 0), .insert (Scan.ascii "xa") (fun _ ↦ 0),
          .delete (Scan.ascii "ab"), .delete (Scan.ascii "b"), .search (Scan.ascii "ab"),
          Call.search_prefix (Scan.ascii "a")] :=
  @refines_bag (fun n ↦ (n + 7) / 8 * 8) 7 (Scan.ascii "abc") abc rfl _ (by decide)

/-- The deletion of the only word frees a table and goes on in it. -/
theorem not_refines_bag_delete :
    ¬ ∀ (room : ℕ → ℕ) (garbage : ℤ) (char_set : Text) (t₀ : Trie),
      made room garbage char_set = some t₀ → ∀ cs : List Call,
        Refine.Refines call (bag char_set) t₀ [] cs := by
  intro h
  have hrun := h (fun n ↦ (n + 7) / 8 * 8) 7 (Scan.ascii "abc") abc rfl
    [.insert (Scan.ascii "ab") (fun _ ↦ 0), .delete (Scan.ascii "ab")]
  revert hrun
  decide +kernel

end Trie

end Libobject
