import Ascribe.Proofs.Tree.Walks
import Ascribe.Tree.Parts

/-!
# Well-formed trees

In a well-formed tree every child is owned by the node that lists it, the way from a node to its owner and on ends at
a root, and names point at nodes of the arena. What a name points at is not restricted in any other way, so
declarations can be recursive.

The height of a node is the number of nodes above it, which is less than there are steps in a walk. Children are one
higher than their owner, so no walk over a well-formed tree comes back to where it was, and every walk that starts at
a node gives an answer.

## Key results

- `Tree.height_eq_succ`, `Tree.height_le_size`: the height of a node
- `Tree.Linked.nearest_ok`, `Tree.Linked.descendants_ok`, `Tree.Linked.collect_ok`, `Tree.Linked.isNumericLiteral_ok`,
  `Tree.Linked.inOptionalChain_ok`: walks give answers
-/

namespace Ascribe

/-- The declaration that a name was bound to. -/
def Form.target? : Form → Option NodeId
  | .reference n _ | .name n => n.target
  | _ => none

theorem Form.leavingValue?_mem_children {form : Form} {value : NodeId} (h : form.leavingValue? = some value) :
    value ∈ form.children := by
  cases form <;> simp_all [leavingValue?, children]

namespace Tree

/-- Every node is owned once and is reached from a root. Names may point anywhere. -/
structure Linked (p : Tree) : Prop where
  owned : ∀ {id child}, child ∈ p.children id → p.parent? child = some id
  owner : ∀ {id up}, p.parent? id = some up → up < p.size
  rooted : ∀ {id}, id < p.size → ∃ above, p.ancestors id = .ok above

/-- Every node is owned once and is reached from a root, and names point at nodes. -/
structure WellFormed (p : Tree) : Prop extends linked : Linked p where
  bound : ∀ {id form target}, p.form? id = some form → form.target? = some target → target < p.size

/-- How many nodes are above a node. -/
def height (p : Tree) (id : NodeId) : Nat :=
  match p.ancestors id with
  | .ok above => above.length
  | .error _ => 0

variable {p : Tree} {id child : NodeId} {form : Form}

/-- `classMember?` finds children of the class. -/
theorem child_of_classMember? {cls : NodeId} {name : String} {isStatic : Bool}
    (h : p.classMember? cls name isStatic = some id) : ∃ form, p.form? cls = some form ∧ id ∈ form.children := by
  unfold classMember? at h
  split at h
  · next c hform =>
    refine ⟨_, hform, ?_⟩
    simp only [Form.children, List.mem_append]
    rcases Option.or_eq_some_iff.mp h with hfound | ⟨-, hfound⟩
    · exact .inl (.inl (.inr (List.mem_of_find?_eq_some hfound)))
    · exact .inl (.inr (List.mem_of_find?_eq_some hfound))
  · cases h

/-! ## Heights -/

/-- `ancestorsWithin` finds nothing at the root, and elsewhere the owner and what is above that. -/
theorem ancestorsWithin_eq_ok_iff {steps : Nat} {above : List NodeId} :
    p.ancestorsWithin steps id = .ok above ↔
      (id < p.size ∧ p.parent? id = none ∧ above = []) ∨
        ∃ up rest below, p.parent? id = some up ∧ above = up :: rest ∧ steps = below + 1 ∧
          p.ancestorsWithin below up = .ok rest := by
  cases hnode : p.node? id with
  | none =>
    have habsent : p.node id = .error (.missingNode id) := by rw [node, hnode]
    have hsize : ¬ id < p.size := by simp [lt_size_iff, hnode]
    cases steps <;> simp [ancestorsWithin, habsent, hsize, parent?, hnode, bind, Except.bind]
  | some n =>
    have hpresent : p.node id = .ok n := by rw [node, hnode]
    have hsize : id < p.size := lt_size_iff.mpr ⟨n, hnode⟩
    have hparent : p.parent? id = n.parent := by simp [parent?, hnode]
    rw [hparent]
    cases hup : n.parent with
    | none =>
      cases steps <;> simp [ancestorsWithin, hpresent, hsize, hup, bind, Except.bind, pure, Except.pure, eq_comm]
    | some up =>
      cases steps with
      | zero => simp [ancestorsWithin, hpresent, hup, bind, Except.bind, throw, throwThe, MonadExceptOf.throw]
      | succ steps =>
        cases hrest : p.ancestorsWithin steps up <;>
          simp [ancestorsWithin, hpresent, hup, hrest, bind, Except.bind, pure, Except.pure, eq_comm]

/-- `ancestorsWithin` can be given more steps once it ends. -/
theorem ancestorsWithin_mono {steps more : Nat} (hle : steps ≤ more) {above : List NodeId}
    (h : p.ancestorsWithin steps id = .ok above) : p.ancestorsWithin more id = .ok above := by
  induction steps generalizing id above more with
  | zero =>
    rcases ancestorsWithin_eq_ok_iff.mp h with hroot | ⟨up, rest, below, -, -, hsteps, -⟩
    · exact ancestorsWithin_eq_ok_iff.mpr (.inl hroot)
    · exact absurd hsteps (by omega)
  | succ steps ih =>
    obtain ⟨more, rfl⟩ : ∃ k, more = k + 1 := ⟨more - 1, by omega⟩
    rcases ancestorsWithin_eq_ok_iff.mp h with hroot | ⟨up, rest, below, hup, habove, hsteps, hrest⟩
    · exact ancestorsWithin_eq_ok_iff.mpr (.inl hroot)
    · obtain rfl : below = steps := by omega
      exact ancestorsWithin_eq_ok_iff.mpr (.inr ⟨up, rest, more, hup, habove, rfl, ih (by omega) hrest⟩)

theorem length_le_of_ancestorsWithin {steps : Nat} {above : List NodeId}
    (h : p.ancestorsWithin steps id = .ok above) : above.length ≤ steps := by
  induction steps generalizing id above with
  | zero =>
    rcases ancestorsWithin_eq_ok_iff.mp h with ⟨-, -, rfl⟩ | ⟨up, rest, below, -, -, hsteps, -⟩
    · exact Nat.le_refl 0
    · exact absurd hsteps (by omega)
  | succ steps ih =>
    rcases ancestorsWithin_eq_ok_iff.mp h with ⟨-, -, rfl⟩ | ⟨up, rest, below, -, rfl, hsteps, hrest⟩
    · exact Nat.zero_le _
    · obtain rfl : below = steps := by omega
      exact Nat.succ_le_succ (ih hrest)

theorem height_eq_of_ancestors {above : List NodeId} (h : p.ancestors id = .ok above) : p.height id = above.length := by
  rw [height, h]

theorem height_le_size (p : Tree) (id : NodeId) : p.height id ≤ p.size := by
  unfold height
  split
  · next above habove => exact length_le_of_ancestorsWithin habove
  · exact Nat.zero_le _

namespace Linked

variable (hp : p.Linked)

include hp

theorem child_lt (hform : p.form? id = some form) : ∀ child ∈ form.children, child < p.size := by
  intro child hchild
  exact lt_size_of_parent? (hp.owned (children_eq hform ▸ hchild))

/-- `height` grows by one from an owner to its child. -/
theorem height_eq_succ {up : NodeId} (h : p.parent? id = some up) : p.height id = p.height up + 1 := by
  obtain ⟨above, habove⟩ := hp.rooted (lt_size_of_parent? h)
  rcases ancestorsWithin_eq_ok_iff.mp habove with ⟨-, hroot, -⟩ | ⟨up', rest, below, hup, rfl, hsteps, hrest⟩
  · rw [hroot] at h
    cases h
  · obtain rfl : up' = up := Option.some.inj (hup.symm.trans h)
    have hall : p.ancestors up' = .ok rest := ancestorsWithin_mono (by omega) hrest
    rw [height_eq_of_ancestors habove, height_eq_of_ancestors hall, List.length_cons]

theorem height_child (hform : p.form? id = some form) (hchild : child ∈ form.children) :
    p.height child = p.height id + 1 :=
  hp.height_eq_succ (hp.owned (children_eq hform ▸ hchild))

/-- A walk that has enough steps by `height` at a node has enough of them, less one, at its child. -/
theorem steps_below (hform : p.form? id = some form) (hchild : child ∈ form.children) {steps : Nat}
    (h : p.size < steps + 1 + p.height id) : p.size < steps + p.height child := by
  rw [hp.height_child hform hchild]
  omega

/-! ## Walks -/

theorem nearestWithin_ok (wanted : Form → Bool) {steps : Nat} {above : List NodeId}
    (h : p.ancestorsWithin steps id = .ok above) :
    ∃ found, p.nearestWithin wanted steps id = .ok found ∧ ∀ up ∈ found, up < p.size := by
  induction steps generalizing id above with
  | zero =>
    rcases ancestorsWithin_eq_ok_iff.mp h with ⟨hid, hroot, -⟩ | ⟨up, rest, below, -, -, hsteps, -⟩
    · obtain ⟨n, hn, hup⟩ := node_ok hid
      exact ⟨none, by simp [nearestWithin, hn, hup, hroot, bind, Except.bind, pure, Except.pure], by simp⟩
    · exact absurd hsteps (by omega)
  | succ steps ih =>
    rcases ancestorsWithin_eq_ok_iff.mp h with ⟨hid, hroot, -⟩ | ⟨up, rest, below, hparent, -, hsteps, hrest⟩
    · obtain ⟨n, hn, hup⟩ := node_ok hid
      exact ⟨none, by simp [nearestWithin, hn, hup, hroot, bind, Except.bind, pure, Except.pure], by simp⟩
    · obtain rfl : below = steps := by omega
      obtain ⟨n, hn, hup⟩ := node_ok (lt_size_of_parent? hparent)
      obtain ⟨form, hform, -⟩ := form_ok (hp.owner hparent)
      rw [nearestWithin, hn]
      simp only [bind, Except.bind, hup, hparent, hform]
      split
      · exact ⟨some up, rfl, by simpa using hp.owner hparent⟩
      · exact ih hrest

/-- `nearest` succeeds at every node of the tree. -/
theorem nearest_ok (wanted : Form → Bool) (hid : id < p.size) :
    ∃ found, p.nearest wanted id = .ok found ∧ ∀ up ∈ found, up < p.size := by
  obtain ⟨above, habove⟩ := hp.rooted hid
  exact hp.nearestWithin_ok wanted habove

/-- `preorderWithin` ends if it is given as much depth as a node may still be higher. -/
theorem preorderWithin_ok (enter : NodeId → Form → Bool) {depth : Nat} (hdepth : p.size < depth + p.height id)
    (hid : id < p.size) : ∃ nodes, p.preorderWithin enter depth id = .ok nodes := by
  induction depth generalizing id with
  | zero =>
    have := p.height_le_size id
    omega
  | succ depth ih =>
    obtain ⟨form, -, hform⟩ := form_ok hid
    have hbelow : ∀ child ∈ p.entered enter id, ∃ nodes, p.preorderWithin enter depth child = .ok nodes := by
      intro child hentered
      have hchild : child ∈ form.children := children_eq hform ▸ (mem_entered.mp hentered).2
      exact ih (hp.steps_below hform hchild hdepth) (hp.child_lt hform child hchild)
    obtain ⟨lists, hlists⟩ := mapM_ok hbelow
    exact ⟨_, preorderWithin_eq_ok_iff.mpr ⟨hid, lists, hlists, rfl⟩⟩

/-- `descendants` succeeds at every node of the tree. -/
theorem descendants_ok (hid : id < p.size) : ∃ nodes, p.descendants id = .ok nodes := by
  obtain ⟨nodes, hnodes⟩ := hp.preorderWithin_ok (fun _ _ => true) (by omega : p.size < p.size + 1 + p.height id) hid
  exact ⟨nodes, descendants_eq_ok_iff.mpr ⟨_, hnodes⟩⟩

/-- `collect` succeeds at every node of the tree. -/
theorem collect_ok (wanted : Form → Bool) (hid : id < p.size) : ∃ nodes, p.collect wanted id = .ok nodes := by
  obtain ⟨nodes, hnodes⟩ := hp.preorderWithin_ok (goesOn id) (by omega : p.size < p.size + 1 + p.height id) hid
  exact ⟨_, collect_eq_ok_iff.mpr ⟨_, nodes, hnodes, rfl⟩⟩

theorem isNumericLiteralWithin_ok {depth : Nat} (hdepth : p.size < depth + p.height id) :
    ∃ answer, p.isNumericLiteralWithin depth id = .ok answer := by
  induction depth generalizing id with
  | zero =>
    have := p.height_le_size id
    omega
  | succ depth ih =>
    rw [isNumericLiteralWithin]
    split
    · exact ⟨true, rfl⟩
    · exact ⟨true, rfl⟩
    · next operand hform => exact ih (hp.steps_below hform (by simp [Form.children]) hdepth)
    · exact ⟨false, rfl⟩

theorem isNumericLiteral_ok (id : NodeId) : ∃ answer, p.isNumericLiteral id = .ok answer :=
  hp.isNumericLiteralWithin_ok (by omega)

theorem inOptionalChainWithin_ok {depth : Nat} (hdepth : p.size < depth + p.height id) :
    ∃ answer, p.inOptionalChainWithin depth id = .ok answer := by
  induction depth generalizing id with
  | zero =>
    have := p.height_le_size id
    omega
  | succ depth ih =>
    rw [inOptionalChainWithin]
    split
    · next m hform =>
      split
      · exact ⟨true, rfl⟩
      · exact ih (hp.steps_below hform (by simp [Form.children]) hdepth)
    · next i hform =>
      split
      · exact ⟨true, rfl⟩
      · exact ih (hp.steps_below hform (by simp [Form.children]) hdepth)
    · next c hform => exact ih (hp.steps_below hform (by simp [Form.children]) hdepth)
    · exact ⟨false, rfl⟩

theorem inOptionalChain_ok (id : NodeId) : ∃ answer, p.inOptionalChain id = .ok answer :=
  hp.inOptionalChainWithin_ok (by omega)

end Linked

/-! ## Checking a tree -/

/-- Whether a node is well-formed. -/
def isWellFormedAt (p : Tree) (id : NodeId) : Bool :=
  (p.children id).all (p.parent? · == some id) && (p.parent? id).all (· < p.size) &&
    ((p.form? id).bind Form.target?).all (· < p.size) && (p.ancestors id).toOption.isSome

theorem WellFormed.of_forall (h : (List.range p.size).all p.isWellFormedAt = true) : p.WellFormed := by
  have at_node {id : NodeId} (hid : id < p.size) : p.isWellFormedAt id = true :=
    List.all_eq_true.mp h id (List.mem_range.mpr hid)
  simp only [isWellFormedAt, Bool.and_eq_true, List.all_eq_true, beq_iff_eq] at at_node
  refine ⟨⟨fun {id child} hchild => ?_, fun {id up} hup => ?_, fun {id} hid => ?_⟩,
    fun {id form target} hform htarget => ?_⟩
  · exact (at_node (lt_size_of_child hchild)).1.1.1 child hchild
  · have hall := (at_node (lt_size_of_parent? hup)).1.1.2
    simpa [hup] using hall
  · have hsome := (at_node hid).2
    cases habove : p.ancestors id with
    | ok above => exact ⟨above, rfl⟩
    | error fault => simp [habove, Except.toOption] at hsome
  · have hall := (at_node (lt_size_of_form? hform)).1.2
    simpa [hform, htarget] using hall

end Tree

end Ascribe
