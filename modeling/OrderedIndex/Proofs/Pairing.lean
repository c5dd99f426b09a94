import Mathlib.Algebra.BigOperators.Group.List.Basic
import Mathlib.Algebra.Order.Group.Multiset
import Mathlib.Tactic.Abel
import OrderedIndex.Columns.Lemmas
import OrderedIndex.Node.Basic

/-!
# Nodes as lists of pairs

A node keeps its keys in one sequence and what stands beside them in another.  To its user it is a
sheet: one list of pairs and the links of the node.  Whatever is done to some nodes at positions
that are in range, in any order, is the list operation of its name on their sheets, and the two
sequences of a node are always the two sides of its list.  A split or a merge only moves pairs from
node to node, and a merge of the two halves of a node gives it back.
-/

namespace OrderedIndex

variable {K V A : Type}

/-! ## Edits of columns -/

namespace Columns

/-- A change of one pair at a position or at an end. -/
inductive Edit (K A : Type) where
  | insert (i : Nat) (k : K) (a : A)
  | remove (i : Nat)
  | push (k : K) (a : A)
  | pushFront (k : K) (a : A)
  | pop
  | popFront

/-- What has been taken and what is left; where there is nothing to take, all is left. -/
def orSame {π σ : Type} (state : σ) : Option (π × σ) → Option π × σ
  | some (taken, rest) => (some taken, rest)
  | none => (none, state)

/-- Makes an edit, and answers the pair that it takes out. -/
def edit (columns : Columns K A) : Edit K A → Except Fault (Option (K × A) × Columns K A)
  | .insert i k a => do return (none, ← columns.insert i k a)
  | .remove i => do
    let (pair, columns) ← columns.remove i
    return (some pair, columns)
  | .push k a => .ok (none, columns.push k a)
  | .pushFront k a => .ok (none, columns.pushFront k a)
  | .pop => .ok (orSame columns columns.pop?)
  | .popFront => .ok (orSame columns columns.popFront?)

/-- The pair that an edit takes out of a list, and the list afterwards, if the edit is in range. -/
def Edit.onPairs? (pairs : List (K × A)) : Edit K A → Option (Option (K × A) × List (K × A))
  | .insert i k a => if i ≤ pairs.length then some (none, pairs.insertIdx i (k, a)) else none
  | .remove i => pairs[i]?.map fun pair => (some pair, pairs.eraseIdx i)
  | .push k a => some (none, pairs ++ [(k, a)])
  | .pushFront k a => some (none, (k, a) :: pairs)
  | .pop => some (pairs.getLast?, pairs.dropLast)
  | .popFront => some (pairs.head?, pairs.tail)

variable {pairs pairs' : List (K × A)}

/-- An edit in range changes both sides as it changes the list of pairs. -/
theorem edit_ofPairs {e : Edit K A} {taken : Option (K × A)}
    (he : e.onPairs? pairs = some (taken, pairs')) :
    (ofPairs pairs).edit e = .ok (taken, ofPairs pairs') := by
  cases e with
  | insert i k a =>
    obtain ⟨hi, hsame⟩ := Option.ite_none_right_eq_some.1 he
    obtain ⟨rfl, rfl⟩ := Prod.mk.inj (Option.some.inj hsame)
    simp only [edit, insert_ofPairs hi, ok_bind, pure_eq_ok]
  | remove i =>
    obtain ⟨pair, hi, hsame⟩ := Option.map_eq_some_iff.1 he
    obtain ⟨rfl, rfl⟩ := Prod.mk.inj hsame
    simp only [edit, remove_ofPairs hi, ok_bind, pure_eq_ok]
  | push k a =>
    obtain ⟨rfl, rfl⟩ := Prod.mk.inj (Option.some.inj he)
    simp only [edit, push_ofPairs]
  | pushFront k a =>
    obtain ⟨rfl, rfl⟩ := Prod.mk.inj (Option.some.inj he)
    simp only [edit, pushFront_ofPairs]
  | pop =>
    obtain ⟨rfl, rfl⟩ := Prod.mk.inj (Option.some.inj he)
    simp only [edit, pop?_ofPairs]
    -- Where there is no last pair the list is empty, and stays so.
    cases hlast : pairs.getLast? with
    | none =>
      obtain rfl := List.getLast?_eq_none_iff.1 hlast
      rfl
    | some pair => rfl
  | popFront =>
    obtain ⟨rfl, rfl⟩ := Prod.mk.inj (Option.some.inj he)
    simp only [edit, popFront?_ofPairs]
    cases pairs with
    | nil => rfl
    | cons pair pairs => rfl

end Columns

/-- Makes an edit of a leaf. -/
def Leaf.edit (leaf : Leaf K V) : Columns.Edit K V → Except Fault (Option (K × V) × Leaf K V)
  | .insert i k v => do return (none, ← leaf.insert i k v)
  | .remove i => do
    let (entry, leaf) ← leaf.remove i
    return (some entry, leaf)
  | .push k v => .ok (none, leaf.push k v)
  | .pushFront k v => .ok (none, leaf.pushFront k v)
  | .pop => .ok (Columns.orSame leaf leaf.pop?)
  | .popFront => .ok (Columns.orSame leaf leaf.popFront?)

/-- Makes an edit of a branch. -/
def Branch.edit (branch : Branch K) :
    Columns.Edit K Handle → Except Fault (Option (K × Handle) × Branch K)
  | .insert i k h => do return (none, ← branch.insertChild i k h)
  | .remove i => do
    let (slot, branch) ← branch.removeChild i
    return (some slot, branch)
  | .push k h => .ok (none, branch.push k h)
  | .pushFront k h => .ok (none, branch.pushFront k h)
  | .pop => .ok (Columns.orSame branch branch.pop?)
  | .popFront => .ok (Columns.orSame branch branch.popFront?)

/-- An edit of a leaf is one of its columns. -/
theorem Leaf.edit_eq (leaf : Leaf K V) (e : Columns.Edit K V) : leaf.edit e =
    (leaf.toColumns.edit e).map fun done => (done.1, { leaf with toColumns := done.2 }) := by
  cases e with
  | insert i k v =>
    simp only [Leaf.edit, Columns.edit, Leaf.insert]
    cases leaf.toColumns.insert i k v <;> rfl
  | remove i =>
    simp only [Leaf.edit, Columns.edit, Leaf.remove]
    cases leaf.toColumns.remove i <;> rfl
  | push k v => rfl
  | pushFront k v => rfl
  | pop =>
    simp only [Leaf.edit, Columns.edit, Leaf.pop?]
    cases leaf.toColumns.pop? <;> rfl
  | popFront =>
    simp only [Leaf.edit, Columns.edit, Leaf.popFront?]
    cases leaf.toColumns.popFront? <;> rfl

/-- An edit of a branch is one of its columns. -/
theorem Branch.edit_eq (branch : Branch K) (e : Columns.Edit K Handle) : branch.edit e =
    (branch.toColumns.edit e).map fun done => (done.1, { branch with toColumns := done.2 }) := by
  cases e with
  | insert i k h =>
    simp only [Branch.edit, Columns.edit, Branch.insertChild]
    cases branch.toColumns.insert i k h <;> rfl
  | remove i =>
    simp only [Branch.edit, Columns.edit, Branch.removeChild]
    cases branch.toColumns.remove i <;> rfl
  | push k h => rfl
  | pushFront k h => rfl
  | pop =>
    simp only [Branch.edit, Columns.edit, Branch.pop?]
    cases branch.toColumns.pop? <;> rfl
  | popFront =>
    simp only [Branch.edit, Columns.edit, Branch.popFront?]
    cases branch.toColumns.popFront? <;> rfl

/-! ## What is done to nodes -/

namespace Node

/-- A change of one node. -/
inductive Change (K V : Type) where
  /-- An edit of the entries of a leaf. -/
  | entries (edit : Columns.Edit K V)
  /-- An edit of the children of a branch. -/
  | slots (edit : Columns.Edit K Handle)
  | value (i : Nat) (v : V)
  | key (i : Nat) (k : K)
  | keys (keys : List K)
  | next (next : Option Handle)
  | parent (parent : Option Handle)

/-- What can be done to some nodes, which go by their positions. -/
inductive Operation (K V : Type) where
  | newLeaf
  | newBranch
  | copy (n : Nat)
  | change (n : Nat) (change : Change K V)
  | split (n : Nat)
  /-- Takes the node at `right` out, and adds its pairs to the one at `n` of those that are left. -/
  | merge (n right : Nat)

/-- What an operation answers. -/
inductive Reply (K V : Type) where
  | done
  | number (n : Nat)
  | entry (entry : Option (K × V))
  | slot (slot : Option (K × Handle))
  | value (v : V)

/-- Makes a change of a node. -/
def change (node : Node K V) : Change K V → Except Fault (Reply K V × Node K V)
  | .entries edit => do
    let (entry, l) ← (← node.asLeaf).edit edit
    return (.entry entry, .leaf l)
  | .slots edit => do
    let (slot, b) ← (← node.asBranch).edit edit
    return (.slot slot, .branch b)
  | .value i v => do
    let (old, l) ← (← node.asLeaf).replaceValue i v
    return (.value old, .leaf l)
  | .key i k => do return (.done, .branch (← (← node.asBranch).setKey i k))
  | .keys keys => do return (.done, .branch ((← node.asBranch).setKeys keys))
  | .next next => do return (.done, .leaf { ← node.asLeaf with next := next })
  | .parent parent => .ok (.done, node.setParent parent)

/-- Divides a node in two. -/
def split : Node K V → Node K V × Node K V
  | .leaf l => (.leaf l.split.1, .leaf l.split.2)
  | .branch b => (.branch b.split.1, .branch b.split.2)

/-- Adds the pairs of the node that follows, which is of the same kind. -/
def mergeRight : Node K V → Node K V → Except Fault (Node K V)
  | .leaf l, right => do return .leaf (l.mergeRight (← right.asLeaf))
  | .branch b, right => do return .branch (b.mergeRight (← right.asBranch))

/-- The node at a position. -/
def nth (nodes : List (Node K V)) (n : Nat) : Except Fault (Node K V) :=
  orFault (.outOfBounds nodes.length n) nodes[n]?

/-- Does something to some nodes.  A new node goes behind the others. -/
def perform (nodes : List (Node K V)) :
    Operation K V → Except Fault (Reply K V × List (Node K V))
  | .newLeaf => .ok (.number nodes.length, nodes ++ [.leaf .empty])
  | .newBranch => .ok (.number nodes.length, nodes ++ [.branch .empty])
  | .copy n => do return (.number nodes.length, nodes ++ [← nth nodes n])
  | .change n change => do
    let (reply, node) ← (← nth nodes n).change change
    return (reply, nodes.set n node)
  | .split n => do
    let (lower, upper) := (← nth nodes n).split
    return (.number nodes.length, nodes.set n lower ++ [upper])
  | .merge n right => do
    let others := nodes.eraseIdx right
    let merged ← (← nth others n).mergeRight (← nth nodes right)
    return (.done, others.set n merged)

/-- Does some things to some nodes in sequence. -/
def run (nodes : List (Node K V)) :
    List (Operation K V) → Except Fault (List (Reply K V) × List (Node K V))
  | [] => .ok ([], nodes)
  | operation :: operations => do
    let (reply, nodes) ← perform nodes operation
    let (replies, nodes) ← run nodes operations
    return (reply :: replies, nodes)

/-- Neither side of a node is longer than the other. -/
def Aligned : Node K V → Prop
  | .leaf l => l.toColumns.Aligned
  | .branch b => b.toColumns.Aligned

end Node

/-! ## Sheets -/

/-- What a node holds: one list of pairs, and its links. -/
inductive Sheet (K V : Type) where
  | leaf (entries : List (K × V)) (next parent : Option Handle)
  | branch (slots : List (K × Handle)) (parent : Option Handle)

namespace Sheet

/-- The node with the two sides of the list. -/
def node : Sheet K V → Node K V
  | .leaf entries next parent => .leaf ⟨.ofPairs entries, next, parent⟩
  | .branch slots parent => .branch ⟨.ofPairs slots, parent⟩

/-- What a change answers, and the sheet afterwards, if the change is one of a node of that kind and
in range. -/
def change? : Sheet K V → Node.Change K V → Option (Node.Reply K V × Sheet K V)
  | .leaf entries next parent, .entries edit =>
    (edit.onPairs? entries).map fun done => (.entry done.1, .leaf done.2 next parent)
  | .leaf entries next parent, .value i v =>
    entries[i]?.map fun entry => (.value entry.2, .leaf (entries.set i (entry.1, v)) next parent)
  | .leaf entries _ parent, .next next => some (.done, .leaf entries next parent)
  | .leaf entries next _, .parent parent => some (.done, .leaf entries next parent)
  | .branch slots parent, .slots edit =>
    (edit.onPairs? slots).map fun done => (.slot done.1, .branch done.2 parent)
  | .branch slots parent, .key i k =>
    slots[i]?.map fun slot => (.done, .branch (slots.set i (k, slot.2)) parent)
  | .branch slots parent, .keys ks =>
    if ks.length = slots.length then
      some (.done, .branch (ks.zip (slots.map Prod.snd)) parent)
    else none
  | .branch slots _, .parent parent => some (.done, .branch slots parent)
  | _, _ => none

/-- The first half of the list and the rest, with the same links. -/
def split : Sheet K V → Sheet K V × Sheet K V
  | .leaf entries next parent =>
    (.leaf (entries.take (entries.length / 2)) next parent,
     .leaf (entries.drop (entries.length / 2)) next parent)
  | .branch slots parent =>
    (.branch (slots.take (slots.length / 2)) parent,
     .branch (slots.drop (slots.length / 2)) parent)

/-- The one list behind the other, with the link of the second one to the next leaf, if both are of
the same kind. -/
def append? : Sheet K V → Sheet K V → Option (Sheet K V)
  | .leaf entries _ parent, .leaf more next _ => some (.leaf (entries ++ more) next parent)
  | .branch slots parent, .branch more _ => some (.branch (slots ++ more) parent)
  | _, _ => none

/-- What an operation answers, and the sheets afterwards, if it is in range. -/
def perform? (sheets : List (Sheet K V)) :
    Node.Operation K V → Option (Node.Reply K V × List (Sheet K V))
  | .newLeaf => some (.number sheets.length, sheets ++ [.leaf [] none none])
  | .newBranch => some (.number sheets.length, sheets ++ [.branch [] none])
  | .copy n => do return (.number sheets.length, sheets ++ [← sheets[n]?])
  | .change n change => do
    let (reply, sheet) ← (← sheets[n]?).change? change
    return (reply, sheets.set n sheet)
  | .split n => do
    let (lower, upper) := (← sheets[n]?).split
    return (.number sheets.length, sheets.set n lower ++ [upper])
  | .merge n right => do
    let others := sheets.eraseIdx right
    let merged ← (← others[n]?).append? (← sheets[right]?)
    return (.done, others.set n merged)

/-- What some operations answer in sequence, and the sheets afterwards, if all are in range. -/
def run? (sheets : List (Sheet K V)) :
    List (Node.Operation K V) → Option (List (Node.Reply K V) × List (Sheet K V))
  | [] => some ([], sheets)
  | operation :: operations => do
    let (reply, sheets) ← perform? sheets operation
    let (replies, sheets) ← run? sheets operations
    return (reply :: replies, sheets)

variable {sheet sheet' other : Sheet K V} {sheets sheets' : List (Sheet K V)}

theorem aligned_node (sheet : Sheet K V) : sheet.node.Aligned := by
  cases sheet with
  | leaf entries next parent => exact Columns.aligned_ofPairs entries
  | branch slots parent => exact Columns.aligned_ofPairs slots

/-- A change in range is one of the sheet. -/
theorem change_node {c : Node.Change K V} {reply : Node.Reply K V}
    (hc : sheet.change? c = some (reply, sheet')) :
    sheet.node.change c = .ok (reply, sheet'.node) := by
  cases sheet with
  | leaf entries next parent =>
    cases c with
    | entries edit =>
      obtain ⟨done, hedit, hsame⟩ := Option.map_eq_some_iff.1 hc
      obtain ⟨rfl, rfl⟩ := Prod.mk.inj hsame
      simp only [node, Node.change, Node.asLeaf, ok_bind, Leaf.edit_eq, Columns.edit_ofPairs hedit]
      rfl
    | value i v =>
      obtain ⟨entry, hi, hsame⟩ := Option.map_eq_some_iff.1 hc
      obtain ⟨rfl, rfl⟩ := Prod.mk.inj hsame
      have hold : (Columns.ofPairs entries).item i = .ok entry.2 := by
        simp [Columns.item, Columns.ofPairs, orFault, hi]
      simp only [node, Node.change, Node.asLeaf, ok_bind, Leaf.replaceValue, Leaf.value, hold,
        pure_eq_ok, Columns.ofPairs_set_item hi]
    | next next =>
      obtain ⟨rfl, rfl⟩ := Prod.mk.inj (Option.some.inj hc)
      rfl
    | parent parent =>
      obtain ⟨rfl, rfl⟩ := Prod.mk.inj (Option.some.inj hc)
      rfl
    -- A leaf has no children and no cached keys.
    | slots | key | keys => cases hc
  | branch slots parent =>
    cases c with
    | slots edit =>
      obtain ⟨done, hedit, hsame⟩ := Option.map_eq_some_iff.1 hc
      obtain ⟨rfl, rfl⟩ := Prod.mk.inj hsame
      simp only [node, Node.change, Node.asBranch, ok_bind, Branch.edit_eq,
        Columns.edit_ofPairs hedit]
      rfl
    | key i k =>
      obtain ⟨slot, hi, hsame⟩ := Option.map_eq_some_iff.1 hc
      obtain ⟨rfl, rfl⟩ := Prod.mk.inj hsame
      have hlt : i < (Columns.ofPairs slots).keys.length := by
        rw [Columns.ofPairs, List.length_map]
        exact (List.getElem?_eq_some_iff.1 hi).1
      simp only [node, Node.change, Node.asBranch, ok_bind, Branch.setKey, if_pos hlt, pure_eq_ok,
        Columns.ofPairs_set_key hi]
    | keys ks =>
      obtain ⟨hlen, hsame⟩ := Option.ite_none_right_eq_some.1 hc
      obtain ⟨rfl, rfl⟩ := Prod.mk.inj (Option.some.inj hsame)
      -- The new keys are as many as the children, so the pairs of both lose nothing.
      have hkeys : (ks.zip (slots.map Prod.snd)).map Prod.fst = ks :=
        List.map_fst_zip (by simp [hlen])
      have hitems : (ks.zip (slots.map Prod.snd)).map Prod.snd = slots.map Prod.snd :=
        List.map_snd_zip (by simp [hlen])
      simp only [node, Node.change, Node.asBranch, ok_bind, Branch.setKeys, pure_eq_ok,
        Columns.ofPairs, hkeys, hitems]
    | parent parent =>
      obtain ⟨rfl, rfl⟩ := Prod.mk.inj (Option.some.inj hc)
      rfl
    -- A branch has no entries, and no link to another leaf.
    | entries | value | next => cases hc

/-- The two parts of a node are those of its sheet. -/
theorem split_node (sheet : Sheet K V) :
    sheet.node.split = (sheet.split.1.node, sheet.split.2.node) := by
  cases sheet with
  | leaf entries next parent =>
    simp only [node, split, Node.split, Leaf.split, Columns.split_ofPairs, Columns.keyCount_ofPairs]
  | branch slots parent =>
    -- A branch is halved by its children, which are as many as the pairs.
    have hcount : (⟨Columns.ofPairs slots, parent⟩ : Branch K).childCount = slots.length :=
      List.length_map _
    simp only [node, split, Node.split, Branch.split, Columns.split_ofPairs, hcount]

/-- A merge of two nodes of the same kind is one of their sheets. -/
theorem mergeRight_node (hm : sheet.append? other = some sheet') :
    sheet.node.mergeRight other.node = .ok sheet'.node := by
  cases sheet with
  | leaf entries next parent =>
    cases other with
    | leaf more next' parent' =>
      obtain rfl := Option.some.inj hm
      simp only [node, ← Columns.append_ofPairs]
      rfl
    | branch slots parent' => cases hm
  | branch slots parent =>
    cases other with
    | leaf entries next parent' => cases hm
    | branch more parent' =>
      obtain rfl := Option.some.inj hm
      simp only [node, ← Columns.append_ofPairs]
      rfl

theorem nth_node {n : Nat} (hn : sheets[n]? = some sheet) :
    Node.nth (sheets.map node) n = .ok sheet.node := by
  unfold Node.nth
  rw [List.getElem?_map, hn]
  rfl

/-- An operation in range is one of the sheets. -/
theorem perform_node {operation : Node.Operation K V} {reply : Node.Reply K V}
    (hp : perform? sheets operation = some (reply, sheets')) :
    Node.perform (sheets.map node) operation = .ok (reply, sheets'.map node) := by
  cases operation with
  | newLeaf =>
    obtain ⟨rfl, rfl⟩ := Prod.mk.inj (Option.some.inj hp)
    simp only [Node.perform, List.length_map, List.map_append]
    rfl
  | newBranch =>
    obtain ⟨rfl, rfl⟩ := Prod.mk.inj (Option.some.inj hp)
    simp only [Node.perform, List.length_map, List.map_append]
    rfl
  | copy n =>
    obtain ⟨sheet, hn, hsame⟩ := Option.bind_eq_some_iff.1 hp
    obtain ⟨rfl, rfl⟩ := Prod.mk.inj (Option.some.inj hsame)
    simp only [Node.perform, nth_node hn, ok_bind, pure_eq_ok, List.length_map, List.map_append]
    rfl
  | change n c =>
    obtain ⟨sheet, hn, hrest⟩ := Option.bind_eq_some_iff.1 hp
    obtain ⟨⟨reply', sheet'⟩, hc, hsame⟩ := Option.bind_eq_some_iff.1 hrest
    obtain ⟨rfl, rfl⟩ := Prod.mk.inj (Option.some.inj hsame)
    simp only [Node.perform, nth_node hn, ok_bind, change_node hc, pure_eq_ok, List.map_set]
  | split n =>
    obtain ⟨sheet, hn, hsame⟩ := Option.bind_eq_some_iff.1 hp
    obtain ⟨rfl, rfl⟩ := Prod.mk.inj (Option.some.inj hsame)
    simp only [Node.perform, nth_node hn, ok_bind, split_node, pure_eq_ok, List.length_map,
      List.map_append, List.map_set]
    rfl
  | merge n right =>
    obtain ⟨sheet, hn, hrest⟩ := Option.bind_eq_some_iff.1 hp
    obtain ⟨other, hright, hrest⟩ := Option.bind_eq_some_iff.1 hrest
    obtain ⟨merged, hm, hsame⟩ := Option.bind_eq_some_iff.1 hrest
    obtain ⟨rfl, rfl⟩ := Prod.mk.inj (Option.some.inj hsame)
    simp only [Node.perform, List.eraseIdx_map, nth_node hn, nth_node hright, ok_bind,
      mergeRight_node hm, pure_eq_ok, List.map_set]

/-- Operations in range, in any order, are those of the sheets. -/
theorem run_node {operations : List (Node.Operation K V)} {replies : List (Node.Reply K V)}
    (hr : run? sheets operations = some (replies, sheets')) :
    Node.run (sheets.map node) operations = .ok (replies, sheets'.map node) := by
  -- What an operation in range leaves are the nodes of sheets again, from which the next one
  -- starts.
  induction operations generalizing sheets replies with
  | nil =>
    obtain ⟨rfl, rfl⟩ := Prod.mk.inj (Option.some.inj hr)
    rfl
  | cons operation operations ih =>
    obtain ⟨⟨reply, sheets₁⟩, hp, hrest⟩ := Option.bind_eq_some_iff.1 hr
    obtain ⟨⟨replies', sheets₂⟩, htail, hsame⟩ := Option.bind_eq_some_iff.1 hrest
    obtain ⟨rfl, rfl⟩ := Prod.mk.inj (Option.some.inj hsame)
    simp only [Node.run, perform_node hp, ok_bind, ih htail, pure_eq_ok]

end Sheet

/-! ## Pairs that move -/

namespace Node

/-- The pairs of a node. -/
def stock : Node K V → Multiset (K × (V ⊕ Handle))
  | .leaf l => .ofList (l.pairs.map fun entry => (entry.1, .inl entry.2))
  | .branch b => .ofList (b.pairs.map fun slot => (slot.1, .inr slot.2))

/-- The pairs of some nodes. -/
def total (nodes : List (Node K V)) : Multiset (K × (V ⊕ Handle)) := (nodes.map stock).sum

variable {node right merged : Node K V} {nodes nodes' : List (Node K V)} {n : Nat}

theorem nth_eq_ok_iff : nth nodes n = .ok node ↔ nodes[n]? = some node :=
  orFault_eq_ok_iff

/-- The two parts of a node share its pairs between them. -/
theorem stock_split (node : Node K V) : node.split.1.stock + node.split.2.stock = node.stock := by
  cases node with
  | leaf l =>
    obtain ⟨hlower, hupper⟩ := Columns.pairs_split l.toColumns (l.keyCount / 2)
    simp only [split, stock, Leaf.split, hlower, hupper, Multiset.coe_add, ← List.map_append,
      List.take_append_drop]
  | branch b =>
    obtain ⟨hlower, hupper⟩ := Columns.pairs_split b.toColumns (b.childCount / 2)
    simp only [split, stock, Branch.split, hlower, hupper, Multiset.coe_add, ← List.map_append,
      List.take_append_drop]

/-- A merged node has the pairs of both. -/
theorem stock_mergeRight (ha : node.Aligned) (hm : node.mergeRight right = .ok merged) :
    merged.stock = node.stock + right.stock := by
  -- If the first node had a key without an item, the items of the second one would be shifted.
  cases node with
  | leaf l =>
    obtain ⟨l', hright, hsame⟩ := bind_eq_ok_iff.1 hm
    obtain rfl := asLeaf_eq_ok_iff.1 hright
    obtain rfl := Except.ok.inj hsame
    have hpairs := Columns.pairs_append ha l'.toColumns
    simp only [stock, Leaf.mergeRight, hpairs, List.map_append, Multiset.coe_add]
  | branch b =>
    obtain ⟨b', hright, hsame⟩ := bind_eq_ok_iff.1 hm
    obtain rfl := asBranch_eq_ok_iff.1 hright
    obtain rfl := Except.ok.inj hsame
    have hpairs := Columns.pairs_append ha b'.toColumns
    simp only [stock, Branch.mergeRight, hpairs, List.map_append, Multiset.coe_add]

/-- A node put in the place of another one brings its own pairs. -/
theorem total_set (hn : nodes[n]? = some node) (node' : Node K V) :
    total (nodes.set n node') + node.stock = total nodes + node'.stock := by
  -- By induction on the nodes in front of the one that is exchanged.
  induction nodes generalizing n with
  | nil => cases hn
  | cons first nodes ih =>
    cases n with
    | zero =>
      obtain rfl := Option.some.inj hn
      simp only [total, List.set_cons_zero, List.map_cons, List.sum_cons]
      abel
    | succ n =>
      have htail := ih hn
      simp only [total, List.set_cons_succ, List.map_cons, List.sum_cons] at htail ⊢
      rw [add_assoc, htail, add_assoc]

theorem total_eraseIdx (hn : nodes[n]? = some node) :
    total (nodes.eraseIdx n) + node.stock = total nodes := by
  induction nodes generalizing n with
  | nil => cases hn
  | cons first nodes ih =>
    cases n with
    | zero =>
      obtain rfl := Option.some.inj hn
      simp only [total, List.eraseIdx_cons_zero, List.map_cons, List.sum_cons]
      abel
    | succ n =>
      have htail := ih hn
      simp only [total, List.eraseIdx_cons_succ, List.map_cons, List.sum_cons] at htail ⊢
      rw [add_assoc, htail]

/-- A split moves pairs from a node to a new one. -/
theorem total_split {reply : Reply K V} (hp : perform nodes (.split n) = .ok (reply, nodes')) :
    total nodes' = total nodes := by
  obtain ⟨node, hn, hsame⟩ := bind_eq_ok_iff.1 hp
  obtain ⟨-, rfl⟩ := Prod.mk.inj (Except.ok.inj hsame)
  have hset := total_set (nth_eq_ok_iff.1 hn) node.split.1
  have hnew : total (nodes.set n node.split.1 ++ [node.split.2]) =
      total (nodes.set n node.split.1) + node.split.2.stock := by
    simp [total]
  -- Multisets cancel, so both sides are compared together with the pairs of the lower half.
  apply add_right_cancel (b := node.split.1.stock)
  calc total (nodes.set n node.split.1 ++ [node.split.2]) + node.split.1.stock
      = total (nodes.set n node.split.1) + (node.split.1.stock + node.split.2.stock) := by
        rw [hnew]
        abel
    _ = total nodes + node.split.1.stock := by rw [stock_split, hset]

/-- A merge moves the pairs of a node to another one. -/
theorem total_merge {m : Nat} {reply : Reply K V} (ha : ∀ node ∈ nodes, node.Aligned)
    (hp : perform nodes (.merge n m) = .ok (reply, nodes')) : total nodes' = total nodes := by
  obtain ⟨node, hn, hrest⟩ := bind_eq_ok_iff.1 hp
  obtain ⟨right, hright, hrest⟩ := bind_eq_ok_iff.1 hrest
  obtain ⟨merged, hm, hsame⟩ := bind_eq_ok_iff.1 hrest
  obtain ⟨-, rfl⟩ := Prod.mk.inj (Except.ok.inj hsame)
  have hn' := nth_eq_ok_iff.1 hn
  have hmem : node ∈ nodes := List.mem_of_mem_eraseIdx (List.mem_of_getElem? hn')
  have hset := total_set hn' merged
  have herase := total_eraseIdx (nth_eq_ok_iff.1 hright)
  apply add_right_cancel (b := node.stock)
  calc total ((nodes.eraseIdx m).set n merged) + node.stock
      = total (nodes.eraseIdx m) + right.stock + node.stock := by
        rw [hset, stock_mergeRight (ha node hmem) hm]
        abel
    _ = total nodes + node.stock := by rw [herase]

/-! ## Halves put together -/

/-- A leaf is restored from its halves, whatever link the first of them has been given. -/
theorem mergeRight_split_leaf (l : Leaf K V) (next : Option Handle) :
    Leaf.mergeRight { l.split.1 with next := next } l.split.2 = l := by
  unfold Leaf.mergeRight Leaf.split
  simp only [Columns.append_split]

theorem mergeRight_split_branch (b : Branch K) : b.split.1.mergeRight b.split.2 = b := by
  unfold Branch.mergeRight Branch.split
  simp only [Columns.append_split]

/-- A node is restored from its halves. -/
theorem mergeRight_split (node : Node K V) : node.split.1.mergeRight node.split.2 = .ok node := by
  cases node with
  | leaf l =>
    -- The merged leaf has the link of the second half, so that of the first one does not matter.
    have hsame := mergeRight_split_leaf l l.next
    exact congrArg (fun l => Except.ok (Node.leaf l)) hsame
  | branch b => exact congrArg (fun b => Except.ok (Node.branch b)) (mergeRight_split_branch b)

/-- Nodes are lists of pairs.  Whatever operations are done to some nodes, in any order and at
positions in range, what they answer and leave is given by the list operations of the same names on
the sheets of the nodes: each node that is left consists of the two sides of one list of pairs,
which are equally long, and from there no split and no merge loses or adds a pair.  Any node that is
split is restored by a merge of its two halves, with its links, even if the first half has been
linked to another leaf. -/
theorem run_keeps_pairs (sheets : List (Sheet K V)) (operations : List (Operation K V))
    {replies : List (Reply K V)} {sheets' : List (Sheet K V)}
    (hr : Sheet.run? sheets operations = some (replies, sheets')) :
    (∃ nodes, run (sheets.map Sheet.node) operations = .ok (replies, nodes) ∧
      nodes = sheets'.map Sheet.node ∧ (∀ node ∈ nodes, node.Aligned) ∧
      (∀ n reply nodes', perform nodes (.split n) = .ok (reply, nodes') →
        total nodes' = total nodes) ∧
      ∀ n m reply nodes', perform nodes (.merge n m) = .ok (reply, nodes') →
        total nodes' = total nodes) ∧
    (∀ node : Node K V, node.split.1.mergeRight node.split.2 = .ok node) ∧
    ∀ (l : Leaf K V) (next : Option Handle),
      Leaf.mergeRight { l.split.1 with next := next } l.split.2 = l := by
  -- What comes from sheets is aligned, so the totals are kept by whatever is done next.
  have haligned : ∀ node ∈ sheets'.map Sheet.node, node.Aligned := by
    intro node hnode
    obtain ⟨sheet, -, rfl⟩ := List.mem_map.1 hnode
    exact sheet.aligned_node
  refine ⟨⟨_, Sheet.run_node hr, rfl, haligned, ?_, ?_⟩, mergeRight_split, mergeRight_split_leaf⟩
  · intro n reply nodes' hp
    exact total_split hp
  · intro n m reply nodes' hp
    exact total_merge haligned hp

/-- Entries that come in one by one are shared between two leaves, and meet again. -/
theorem run_keeps_pairs_shared :
    run ([] : List (Node Nat Nat)) [.newLeaf, .change 0 (.entries (.push 10 1)),
      .change 0 (.entries (.push 30 3)), .change 0 (.entries (.insert 1 20 2)), .split 0,
      .change 0 (.next (some ⟨5⟩)), .change 1 (.value 0 7), .change 1 (.entries .pop), .merge 0 1] =
      .ok ([.number 0, .entry none, .entry none, .entry none, .number 1, .done, .value 2,
        .entry (some (30, 3)), .done], [.leaf ⟨⟨[10, 20], [1, 7]⟩, none, none⟩]) := by
  have hsheets : Sheet.run? ([] : List (Sheet Nat Nat)) [.newLeaf,
      .change 0 (.entries (.push 10 1)), .change 0 (.entries (.push 30 3)),
      .change 0 (.entries (.insert 1 20 2)), .split 0, .change 0 (.next (some ⟨5⟩)),
      .change 1 (.value 0 7), .change 1 (.entries .pop), .merge 0 1] =
      some ([.number 0, .entry none, .entry none, .entry none, .number 1, .done, .value 2,
        .entry (some (30, 3)), .done], [.leaf [(10, 1), (20, 7)] none none]) := rfl
  obtain ⟨⟨nodes, hrun, rfl, -⟩, -⟩ := run_keeps_pairs [] _ hsheets
  exact hrun

end Node

end OrderedIndex
