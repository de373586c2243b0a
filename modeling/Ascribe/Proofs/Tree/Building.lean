import Mathlib.Data.List.Induction
import Ascribe.Proofs.Tree.Forest

/-!
# Trees as they are built

A tree is built by a script of calls that add a node, reserve one, or fill a reserved one. Nodes are numbered as they
are added, so a node that is filled late may own nodes with higher numbers, and numbers do not tell what is above what.
The order in which nodes are completed does: a node is given away only once it is complete, so it is completed before
its owner.

A script is in order (`Tree.IsScript`) if it gives away only complete nodes, none of them twice, and fills only reserved
nodes, none of them twice. Then the script can be carried out, every node ends up with the form that was written last,
and the nodes are a forest.

## Key results

- `Tree.Call.run_ok`: what one call does to a tree
- `Tree.IsScript.not_complete`, `Tree.IsScript.children_of_not_complete`: the node that a call is about
- `Tree.Built.concat`, `Tree.IsScript.built`: what a script builds
- `Tree.IsScript.walks_agree`: walks up and down the tree that a script builds agree
-/

namespace Ascribe.Tree

/-- One call of a script that builds a tree. -/
inductive Call where
  | alloc (form : Form) (span : Span)
  | reserve
  | fill (id : NodeId) (form : Form) (span : Span)

namespace Call

/-- Carry out a call. -/
def run (t : Tree) : Call → Except Fault Tree
  | .alloc form span => Prod.snd <$> t.alloc form span
  | .reserve => .ok t.reserve.2
  | .fill id form span => t.fill id form span

/-- The form that a call writes. -/
def form : Call → Form
  | .alloc form _ | .fill _ form _ => form
  | .reserve => .pending

/-- The node that a call fills. -/
def filled? : Call → Option NodeId
  | .fill id .. => some id
  | _ => none

def isReserve : Call → Bool
  | .reserve => true
  | _ => false

/-- The node that a call is about, if it comes after `next` nodes. -/
def node (next : Nat) (call : Call) : NodeId :=
  call.filled?.getD next

/-- How many nodes there are after a call that comes after `next` nodes. -/
def after (next : Nat) (call : Call) : Nat :=
  if call.filled?.isSome then next else next + 1

end Call

/-- Carry out a script, from an empty tree. -/
def build (calls : List Call) : Except Fault Tree :=
  calls.foldlM Call.run {}

/-! ## Scripts -/

/-- How many nodes a script adds. -/
def created (calls : List Call) : Nat :=
  calls.foldl Call.after 0

/-- The calls of a script, each with the node that it is about, if they come after `next` nodes. -/
def placedFrom : Nat → List Call → List (NodeId × Call)
  | _, [] => []
  | next, call :: rest => (call.node next, call) :: placedFrom (call.after next) rest

/-- The nodes that a script reserves. -/
def reserved (calls : List Call) : List NodeId :=
  ((placedFrom 0 calls).filter (·.2.isReserve)).map Prod.fst

/-- The nodes that a script fills. -/
def filled (calls : List Call) : List NodeId :=
  calls.filterMap Call.filled?

/-- The nodes that a script gives to other nodes as children. -/
def given (calls : List Call) : List NodeId :=
  calls.flatMap (·.form.children)

/-- The form of a node after a script: the one that the last call about it writes. -/
def formAfter (calls : List Call) (id : NodeId) : Option Form :=
  ((placedFrom 0 calls).reverse.find? (·.1 == id)).map (·.2.form)

/-- A node is complete once it has been added and, if it was reserved, filled. -/
def Complete (calls : List Call) (id : NodeId) : Prop :=
  id < created calls ∧ (id ∈ reserved calls → id ∈ filled calls)

/-- A call that may come after some others: the children that it gives away are complete by then, so a node is never
filled with itself, and the node that it fills was reserved. -/
structure Call.Follows (call : Call) (earlier : List Call) : Prop where
  complete : ∀ child ∈ call.form.children, Complete earlier child
  waits : ∀ id ∈ call.filled?, id ∈ reserved earlier

/-- A script that is in order: every call may come after those before it, no node is given away twice, and none is
filled twice. -/
structure IsScript (calls : List Call) : Prop where
  follows : ∀ i : Fin calls.length, (calls[i]).Follows (calls.take i)
  once : (given calls).Nodup
  filledOnce : (filled calls).Nodup

instance (calls : List Call) (id : NodeId) : Decidable (Complete calls id) :=
  inferInstanceAs (Decidable (_ ∧ _))

instance (call : Call) (earlier : List Call) : Decidable (call.Follows earlier) :=
  decidable_of_iff
    ((∀ child ∈ call.form.children, Complete earlier child) ∧ ∀ id ∈ call.filled?, id ∈ reserved earlier)
    ⟨fun ⟨complete, waits⟩ => ⟨complete, waits⟩, fun h => ⟨h.complete, h.waits⟩⟩

instance (calls : List Call) : Decidable (IsScript calls) :=
  decidable_of_iff
    ((∀ i : Fin calls.length, (calls[i]).Follows (calls.take i)) ∧ (given calls).Nodup ∧ (filled calls).Nodup)
    ⟨fun ⟨follows, once, filledOnce⟩ => ⟨follows, once, filledOnce⟩, fun h => ⟨h.follows, h.once, h.filledOnce⟩⟩

variable {t t' : Tree} {call : Call} {calls : List Call} {id child : NodeId}

/-! ## A script that is one call longer -/

theorem created_concat (calls : List Call) (call : Call) : created (calls ++ [call]) = call.after (created calls) :=
  List.foldl_concat _ _ _ _

theorem placedFrom_concat (next : Nat) (calls : List Call) (call : Call) :
    placedFrom next (calls ++ [call]) =
      placedFrom next calls ++ [(call.node (calls.foldl Call.after next), call)] := by
  induction calls generalizing next with
  | nil => rfl
  | cons first rest ih =>
    rw [List.cons_append, placedFrom, ih]
    rfl

theorem reserved_concat (calls : List Call) (call : Call) :
    reserved (calls ++ [call]) = reserved calls ++ if call.isReserve then [created calls] else [] := by
  unfold reserved
  rw [placedFrom_concat, List.filter_append, List.map_append]
  cases call <;> rfl

theorem filled_concat (calls : List Call) (call : Call) :
    filled (calls ++ [call]) = filled calls ++ call.filled?.toList := by
  unfold filled
  rw [List.filterMap_append]
  cases call <;> rfl

theorem given_concat (calls : List Call) (call : Call) :
    given (calls ++ [call]) = given calls ++ call.form.children := by
  unfold given
  rw [List.flatMap_append, List.flatMap_singleton]

theorem formAfter_concat (calls : List Call) (call : Call) (id : NodeId) :
    formAfter (calls ++ [call]) id = if id = call.node (created calls) then some call.form else formAfter calls id := by
  unfold formAfter
  rw [placedFrom_concat, List.reverse_concat, List.find?_cons]
  show Option.map _ (match call.node (created calls) == id with | true => _ | false => _) = _
  by_cases h : id = call.node (created calls)
  · simp [h]
  · have hne : (call.node (created calls) == id) = false := beq_false_of_ne (Ne.symm h)
    simp [h, hne]

theorem created_le (calls : List Call) (call : Call) : created calls ≤ created (calls ++ [call]) := by
  rw [created_concat]
  unfold Call.after
  split <;> omega

theorem reserved_lt (h : id ∈ reserved calls) : id < created calls := by
  induction calls using List.reverseRecOn with
  | nil => cases h
  | append_singleton calls call ih =>
    rw [reserved_concat, List.mem_append] at h
    rcases h with h | h
    · exact Nat.lt_of_lt_of_le (ih h) (created_le calls call)
    · cases call with
      | reserve =>
        obtain rfl := List.mem_singleton.mp h
        rw [created_concat]
        exact Nat.lt_succ_self _
      | alloc | fill => cases h

theorem IsScript.concat (h : IsScript (calls ++ [call])) : IsScript calls ∧ call.Follows calls := by
  have hfollows := h.follows
  have honce := h.once
  have hfilled := h.filledOnce
  rw [given_concat] at honce
  rw [filled_concat] at hfilled
  refine ⟨⟨fun i => ?_, (List.nodup_append.mp honce).1, (List.nodup_append.mp hfilled).1⟩, ?_⟩
  · have hi := hfollows ⟨i, by rw [List.length_append]; omega⟩
    simpa [List.getElem_append_left, List.take_append_of_le_length, Nat.le_of_lt i.isLt] using hi
  · simpa using hfollows ⟨calls.length, by simp⟩

theorem Complete.concat (h : Complete calls id) (call : Call) : Complete (calls ++ [call]) id := by
  refine ⟨Nat.lt_of_lt_of_le h.1 (created_le calls call), fun hreserved => ?_⟩
  rw [filled_concat, List.mem_append]
  rw [reserved_concat, List.mem_append] at hreserved
  rcases hreserved with hreserved | hreserved
  · exact .inl (h.2 hreserved)
  · -- a node that is reserved now did not exist before
    cases call with
    | reserve => exact absurd (List.mem_singleton.mp hreserved) (Nat.ne_of_lt h.1)
    | alloc | fill => cases hreserved

theorem IsScript.complete_of_given (h : IsScript calls) (hchild : child ∈ given calls) : Complete calls child := by
  induction calls using List.reverseRecOn with
  | nil => cases hchild
  | append_singleton calls call ih =>
    obtain ⟨hcalls, hcall⟩ := h.concat
    apply Complete.concat
    rw [given_concat, List.mem_append] at hchild
    rcases hchild with hchild | hchild
    · exact ih hcalls hchild
    · exact hcall.complete child hchild

/-- The node that a call is about is not `Complete` before the call. -/
theorem IsScript.not_complete (h : IsScript (calls ++ [call])) : ¬ Complete calls (call.node (created calls)) := by
  rintro ⟨hlt, hfilled⟩
  cases call with
  | alloc | reserve => exact Nat.lt_irrefl _ hlt
  | fill id form span =>
    have honce := h.filledOnce
    rw [filled_concat] at honce
    obtain ⟨-, -, hapart⟩ := List.nodup_append.mp honce
    have hreserved : id ∈ reserved calls := h.concat.2.waits id rfl
    exact hapart id (hfilled hreserved) id (List.mem_singleton.mpr rfl) rfl

/-- A call that is no `isReserve` makes its node `Complete`. -/
theorem IsScript.complete_node (h : IsScript (calls ++ [call])) (hcall : call.isReserve = false) :
    Complete (calls ++ [call]) (call.node (created calls)) := by
  unfold Complete
  rw [created_concat, reserved_concat, filled_concat, hcall]
  simp only [Bool.false_eq_true, if_false, List.append_nil]
  cases call with
  | alloc form span => exact ⟨Nat.lt_succ_self _, fun hreserved => absurd (reserved_lt hreserved) (Nat.lt_irrefl _)⟩
  | reserve => cases hcall
  | fill id form span =>
    have hreserved : id ∈ reserved calls := h.concat.2.waits id rfl
    exact ⟨reserved_lt hreserved, fun _ => List.mem_append_right _ (List.mem_singleton.mpr rfl)⟩

/-- A node that is not `Complete` has no `children`. -/
theorem IsScript.children_of_not_complete (h : IsScript calls) (hid : ¬ Complete calls id) {form : Form}
    (hform : formAfter calls id = some form) : form.children = [] := by
  induction calls using List.reverseRecOn with
  | nil => cases hform
  | append_singleton calls call ih =>
    rw [formAfter_concat] at hform
    split at hform
    · next heq =>
      obtain rfl := Option.some.inj hform
      cases call with
      | reserve => rfl
      | alloc | fill => exact absurd (h.complete_node rfl) (heq ▸ hid)
    · exact ih h.concat.1 (fun hcomplete => hid (hcomplete.concat call)) hform

/-! ## One call -/

/-- A tree after a form has been written at a node and the children have been adopted. -/
structure Writes (t : Tree) (id : NodeId) (f : Form) (t' : Tree) : Prop where
  form : ∀ n, t'.form? n = if n = id then some f else t.form? n
  parent : ∀ n, t'.parent? n = if n ∈ f.children then some id else t.parent? n

theorem Writes.children {f : Form} (h : t.Writes id f t') (n : NodeId) :
    t'.children n = if n = id then f.children else t.children n := by
  unfold Tree.children
  rw [h.form]
  by_cases hn : n = id <;> simp [hn]

theorem node?_push (t : Tree) (node : Node) (n : NodeId) :
    node? { t with nodes := t.nodes.push node } n = if n = t.size then some node else t.node? n :=
  Array.getElem?_push

theorem node?_set (hid : id < t.size) (node : Node) (n : NodeId) :
    node? { t with nodes := t.nodes.setIfInBounds id node } n = if n = id then some node else t.node? n := by
  show (t.nodes.setIfInBounds id node)[n]? = _
  rw [Array.getElem?_setIfInBounds, if_pos (show id < t.nodes.size from hid)]
  by_cases hn : n = id
  · rw [if_pos hn, if_pos hn.symm]
  · rw [if_neg hn, if_neg (Ne.symm hn)]
    rfl

theorem adopt_ok (id : NodeId) (hchild : child < t.size) :
    ∃ t', t.adopt id child = .ok t' ∧ t'.size = t.size ∧ (∀ n, t'.form? n = t.form? n) ∧
      ∀ n, t'.parent? n = if n = child then some id else t.parent? n := by
  obtain ⟨node, hnode⟩ := lt_size_iff.mp hchild
  refine ⟨{ t with nodes := t.nodes.setIfInBounds child { node with parent := some id } }, ?_, ?_, ?_, ?_⟩
  · have hget : t.nodes[child]? = some node := hnode
    simp [adopt, hget]
  · simp [size]
  · intro n
    by_cases hn : n = child
    · simp [form?, node?_set hchild, hn, hnode]
    · simp [form?, node?_set hchild, hn]
  · intro n
    by_cases hn : n = child <;> simp [parent?, node?_set hchild, hn]

/-- `adopt` of some nodes changes their `parent?` and nothing else. -/
theorem foldlM_adopt_ok (id : NodeId) {children : List NodeId} (h : ∀ child ∈ children, child < t.size) :
    ∃ t', children.foldlM (adopt id) t = .ok t' ∧ t'.size = t.size ∧ (∀ n, t'.form? n = t.form? n) ∧
      ∀ n, t'.parent? n = if n ∈ children then some id else t.parent? n := by
  induction children generalizing t with
  | nil => exact ⟨t, rfl, rfl, fun _ => rfl, fun _ => by simp⟩
  | cons child rest ih =>
    rw [List.forall_mem_cons] at h
    obtain ⟨t₁, hadopt, hsize, hform, hparent⟩ := adopt_ok id h.1
    obtain ⟨t', hrest, hsize', hform', hparent'⟩ := ih (t := t₁) (fun child hchild => hsize ▸ h.2 child hchild)
    refine ⟨t', ?_, hsize'.trans hsize, fun n => (hform' n).trans (hform n), fun n => ?_⟩
    · rw [List.foldlM_cons, hadopt]
      exact hrest
    · rw [hparent', hparent]
      by_cases hrest : n ∈ rest <;> by_cases hchild : n = child <;> simp [hrest, hchild]

/-- A form that is set at `id` and `adopt` of its children are together `Writes id`. -/
theorem foldlM_adopt_writes {t₁ : Tree} {f : Form} (h : ∀ child ∈ f.children, child < t₁.size)
    (hform : ∀ n, t₁.form? n = if n = id then some f else t.form? n) (hparent : ∀ n, t₁.parent? n = t.parent? n) :
    ∃ t', f.children.foldlM (adopt id) t₁ = .ok t' ∧ t'.size = t₁.size ∧ t.Writes id f t' := by
  obtain ⟨t', hadopt, hsize, hform', hparent'⟩ := foldlM_adopt_ok id h
  refine ⟨t', hadopt, hsize, fun n => (hform' n).trans (hform n), fun n => ?_⟩
  rw [hparent', hparent]

/-- A node without an owner that is pushed and `adopt` of its children are together `Writes`. -/
theorem foldlM_adopt_push (node : Node) (hnode : node.parent = none)
    (h : ∀ child ∈ node.form.children, child < t.size) :
    ∃ t', node.form.children.foldlM (adopt t.size) { t with nodes := t.nodes.push node } = .ok t' ∧
      t'.size = t.size + 1 ∧ t.Writes t.size node.form t' := by
  have hsize : size { t with nodes := t.nodes.push node } = t.size + 1 := Array.size_push _
  rw [← hsize]
  apply foldlM_adopt_writes
  · intro child hchild
    exact hsize ▸ Nat.lt_succ_of_lt (h child hchild)
  · intro n
    by_cases hn : n = t.size <;> simp [form?, node?_push, hn]
  · intro n
    by_cases hn : n = t.size
    · have habsent : t.node? t.size = none := Array.getElem?_size
      simp [parent?, node?_push, hn, hnode, habsent]
    · simp [parent?, node?_push, hn]

/-- `Call.run` succeeds if the children and the filled node exist, and `Writes` the form of the call at its node. -/
theorem Call.run_ok (hchildren : ∀ child ∈ call.form.children, child < t.size)
    (hfilled : ∀ id ∈ call.filled?, id < t.size) :
    ∃ t', call.run t = .ok t' ∧ t'.size = call.after t.size ∧ t.Writes (call.node t.size) call.form t' := by
  cases call with
  | alloc form span =>
    obtain ⟨t', hadopt, hsize, hwrites⟩ := foldlM_adopt_push { form, span } rfl hchildren
    refine ⟨t', ?_, hsize, hwrites⟩
    simp only [run, Tree.alloc]
    rw [hadopt]
    rfl
  | reserve =>
    obtain ⟨t', hadopt, hsize, hwrites⟩ := foldlM_adopt_push { form := .pending } rfl hchildren
    exact ⟨t', hadopt, hsize, hwrites⟩
  | fill id form span =>
    have hid : id < t.size := hfilled id rfl
    obtain ⟨node, hnode⟩ := lt_size_iff.mp hid
    have hset := node?_set hid { node with form, span }
    have hsize : size { t with nodes := t.nodes.setIfInBounds id { node with form, span } } = t.size :=
      Array.size_setIfInBounds
    have hfill : t.fill id form span = form.children.foldlM (adopt id)
        { t with nodes := t.nodes.setIfInBounds id { node with form, span } } := by
      rw [Tree.fill, Tree.node, hnode]
      rfl
    show ∃ t', t.fill id form span = .ok t' ∧ t'.size = t.size ∧ t.Writes id form t'
    rw [hfill, ← hsize]
    apply foldlM_adopt_writes
    · intro child hchild
      exact hsize ▸ hchildren child hchild
    · intro n
      by_cases hn : n = id <;> simp [form?, hset, hn]
    · intro n
      by_cases hn : n = id
      · simp [parent?, hset, hn, hnode]
      · simp [parent?, hset, hn]

/-! ## A whole script -/

/-- Nodes have a rank up to a bound, and owners outrank their children. -/
def Ranked (t : Tree) (bound : Nat) : Prop :=
  ∃ rank : NodeId → Nat, (∀ {id child}, child ∈ t.children id → rank child < rank id) ∧ ∀ id, rank id ≤ bound

/-- What a tree is like after a script. -/
structure Built (calls : List Call) (t : Tree) : Prop where
  size : t.size = created calls
  form : ∀ id, t.form? id = formAfter calls id
  linked : ∀ {id child}, t.parent? child = some id ↔ child ∈ t.children id
  given : ∀ {id child}, child ∈ t.children id → child ∈ given calls
  distinct : ∀ id, (t.children id).Nodup
  ranked : t.Ranked calls.length

theorem Built.isForest (h : Built calls t) : t.IsForest := by
  obtain ⟨rank, hrank, hbound⟩ := h.ranked
  exact .of_rank h.linked h.distinct hrank hbound

/-- `Writes id` at a node that is no child, of itself least of all, keeps the tree `Ranked`. The node is completed after
all others, so it may outrank them. -/
theorem Writes.ranked {f : Form} {bound : Nat} (h : t.Writes id f t') (hranked : t.Ranked bound)
    (hself : id ∉ f.children) (hgiven : ∀ n, id ∉ t.children n) : t'.Ranked (bound + 1) := by
  obtain ⟨rank, hrank, hbound⟩ := hranked
  refine ⟨fun n => if n = id then bound + 1 else rank n, fun {n child} hchild => ?_, fun n => ?_⟩
  · rw [h.children] at hchild
    have hne : child ≠ id := by
      rintro rfl
      split at hchild
      · exact hself hchild
      · exact hgiven n hchild
    dsimp only
    rw [if_neg hne]
    split at hchild
    · next hn => rw [if_pos hn]; exact Nat.lt_succ_of_le (hbound child)
    · next hn => rw [if_neg hn]; exact hrank hchild
  · dsimp only
    split
    · exact Nat.le_refl _
    · exact Nat.le_succ_of_le (hbound n)

/-- A call that may come after a script takes `Built` of the script to `Built` of both. -/
theorem Built.concat (h : Built calls t) (hcalls : IsScript (calls ++ [call])) (hsize : t'.size = call.after t.size)
    (hwrites : t.Writes (call.node t.size) call.form t') : Built (calls ++ [call]) t' := by
  rw [h.size] at hsize hwrites
  have hnode := hcalls.not_complete
  have hself : call.node (created calls) ∉ call.form.children := fun hchild => hnode (hcalls.concat.2.complete _ hchild)
  have hgiven (n : NodeId) : call.node (created calls) ∉ t.children n :=
    fun hchild => hnode (hcalls.concat.1.complete_of_given (h.given hchild))
  have hempty : t.children (call.node (created calls)) = [] := by
    unfold children
    rw [h.form]
    split
    · next form hform => exact hcalls.concat.1.children_of_not_complete hnode hform
    · rfl
  have honce := hcalls.once
  rw [given_concat] at honce
  obtain ⟨-, honce, hapart⟩ := List.nodup_append.mp honce
  refine ⟨?_, fun id => ?_, fun {id child} => ?_, fun {id child} hchild => ?_, fun id => ?_, ?_⟩
  · rw [hsize, created_concat]
  · rw [hwrites.form, formAfter_concat, h.form]
  · rw [hwrites.parent, hwrites.children]
    by_cases hid : id = call.node (created calls)
    · subst hid
      by_cases hchild : child ∈ call.form.children
      · simp [hchild]
      · simp [hchild, h.linked, hempty]
    · by_cases hchild : child ∈ call.form.children
      · have hold : child ∉ t.children id := fun hold => hapart child (h.given hold) child hchild rfl
        simp [hchild, hid, hold, Ne.symm hid]
      · simp [hchild, hid, h.linked]
  · rw [given_concat, List.mem_append]
    rw [hwrites.children] at hchild
    split at hchild
    · exact .inr hchild
    · exact .inl (h.given hchild)
  · rw [hwrites.children]
    split
    · exact honce
    · exact h.distinct id
  · rw [List.length_append]
    exact hwrites.ranked h.ranked hself hgiven

/-- `build` carries out every script that `IsScript`. -/
theorem IsScript.built (h : IsScript calls) : ∃ t, build calls = .ok t ∧ Built calls t := by
  induction calls using List.reverseRecOn with
  | nil =>
    -- the empty tree has no node, so no node is a child and none has an owner
    refine ⟨{}, rfl, rfl, fun _ => rfl, ⟨nofun, nofun⟩, nofun, fun _ => .nil, fun _ => 0, nofun, fun _ => Nat.le_refl _⟩
  | append_singleton calls call ih =>
    obtain ⟨hcalls, hcall⟩ := h.concat
    obtain ⟨t, hbuild, hbuilt⟩ := ih hcalls
    have hchildren : ∀ child ∈ call.form.children, child < t.size :=
      fun child hchild => hbuilt.size ▸ (hcall.complete child hchild).1
    have hfilled : ∀ id ∈ call.filled?, id < t.size := fun id hid => hbuilt.size ▸ reserved_lt (hcall.waits id hid)
    obtain ⟨t', hrun, hsize, hwrites⟩ := call.run_ok hchildren hfilled
    refine ⟨t', ?_, hbuilt.concat h hsize hwrites⟩
    rw [build, List.foldlM_append]
    exact bind_eq_ok.mpr ⟨t, hbuild, bind_eq_ok.mpr ⟨t', hrun, rfl⟩⟩

/-- `ancestors` and `descendants` agree on the tree that a script in order builds. `build` carries the script out and
gives every node the form that was written last. A node owns exactly its `children`, and both walks end. `visit` lists
the same nodes in however many steps its stack is emptied. `descendants` lists a node and after it what it lists for the
children, in their order and one after the other. It lists no node twice and none after one below it; what it lists for
a node that it meets stands in one piece. The nodes it lists are the one that it starts at and those whose `ancestors`
it is among. -/
theorem IsScript.walks_agree (h : IsScript calls) :
    ∃ t, build calls = .ok t ∧ t.size = created calls ∧ (∀ id, t.form? id = formAfter calls id) ∧
      (∀ m n, t.parent? n = some m ↔ n ∈ t.children m) ∧ (∀ n < t.size, ∃ above, t.ancestors n = .ok above) ∧
      ∀ m < t.size, ∃ found, t.descendants m = .ok found ∧
        (∀ steps result, t.visit (fun _ => true) (fun _ _ => true) steps [m] #[] = .ok result → result.toList = found) ∧
        (∃ below, (t.children m).mapM t.descendants = .ok below ∧ found = m :: below.flatten) ∧
        found.Nodup ∧
        (found.Pairwise fun earlier later => ∀ above, t.ancestors earlier = .ok above → later ∉ above) ∧
        (∀ n ∈ found, ∃ inner, t.descendants n = .ok inner ∧ inner <:+: found) ∧
        ∀ n above, t.ancestors n = .ok above → (n ∈ found ↔ n = m ∨ m ∈ above) := by
  obtain ⟨t, hbuild, hbuilt⟩ := h.built
  have hforest := hbuilt.isForest
  refine ⟨t, hbuild, hbuilt.size, hbuilt.form, fun m n => hforest.linked, fun n hn => hforest.rooted hn, fun m hm => ?_⟩
  obtain ⟨found, hfound⟩ := hforest.isLinked.descendants_ok hm
  obtain ⟨depth, hpreorder⟩ := descendants_eq_ok_iff.mp hfound
  have hordered := hforest.pairwise_preorderWithin hpreorder
  refine ⟨found, hfound, ?_, descendants_eq_ok hfound, hordered.imp ?_, hordered.imp ?_, ?_, ?_⟩
  · intro steps result hresult
    exact Except.ok.inj ((descendants_of_visit hresult).symm.trans hfound)
  · rintro earlier _ hbelow rfl
    exact hbelow .refl
  · intro earlier later hbelow above habove hlater
    exact hbelow ((hforest.below_iff habove).mpr (.inr hlater))
  · intro n hn
    exact infix_of_mem_preorderWithin hpreorder hn
  · intro n above habove
    rw [mem_descendants_iff hfound, hforest.below_iff habove]

/-- A program of one function that calls itself. The function is reserved first, so that its body can name it. -/
def recursiveFunction : List Call :=
  [.reserve, .alloc (.name { name := "f", target := some 0 }) {}, .alloc (.call { callee := 1 }) {},
    .alloc (.block [2]) {}, .fill 0 (.funDecl { name := "f", body := some 3 }) {}, .alloc (.compilationUnit [0]) {}]

/-- `recursiveFunction` is listed from the program down to the name of the function, which has a lower number than its
owners but for the function. -/
theorem recursiveFunction_walks_agree :
    IsScript recursiveFunction ∧ ∃ t, build recursiveFunction = .ok t ∧ t.descendants 4 = .ok [4, 0, 3, 2, 1] ∧
      t.ancestors 1 = .ok [2, 3, 0, 4] ∧ ∀ m n, t.parent? n = some m ↔ n ∈ t.children m := by
  have hscript : IsScript recursiveFunction := by decide
  obtain ⟨t, hbuild, -, -, hlinked, -⟩ := IsScript.walks_agree hscript
  obtain rfl := Except.ok.inj hbuild
  exact ⟨hscript, _, rfl, rfl, rfl, hlinked⟩

end Ascribe.Tree
