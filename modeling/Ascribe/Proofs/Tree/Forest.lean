import Mathlib.Data.List.Nodup
import Mathlib.Data.List.Perm.Subperm
import Mathlib.Logic.Relation
import Ascribe.Proofs.Tree.WellFormed

/-!
# Walks up and down a forest

The nodes of a tree are a forest if the owner of a node is the node that lists it, no node is listed twice by its owner,
and the way up from every node ends at a root. Walking down from a node then lists the nodes below it and no others,
each once: the node itself, and after it what is listed for its children, one after the other. A node is listed for
another exactly if the way up from it comes by.

## Key results

- `Tree.descendants_eq_ok`: the walk down lists a node, and after it what it lists for each child
- `Tree.mem_descendants_iff`: the walk down lists the nodes below a node
- `Tree.IsForest.below_iff`: they are the nodes from which the way up comes by
- `Tree.IsForest.pairwise_preorderWithin`: a node is listed once, and before what is below it
- `Tree.IsForest.of_rank`: owners that outrank their children make a forest
- `Tree.IsForest.of_forall`: a tree can be checked to be one, node by node
-/

namespace Ascribe.Tree

variable {p : Tree} {root node child : NodeId} {found : List NodeId}

/-! ## The walk from a node -/

/-- A node is another one or below it. -/
def Below (p : Tree) : NodeId → NodeId → Prop :=
  Relation.ReflTransGen fun up down => down ∈ p.children up

/-- `descendants` lists a node, and after it what it lists for the children, one child after another. -/
theorem descendants_eq_ok (h : p.descendants root = .ok found) :
    ∃ lists, (p.children root).mapM p.descendants = .ok lists ∧ found = root :: lists.flatten := by
  obtain ⟨depth, h⟩ := descendants_eq_ok_iff.mp h
  cases depth with
  | zero => cases h
  | succ depth =>
    obtain ⟨-, lists, hlists, rfl⟩ := preorderWithin_eq_ok_iff.mp h
    rw [entered_everywhere] at hlists
    refine ⟨lists, mapM_of_forall₂ ?_, rfl⟩
    exact (forall₂_of_mapM hlists).imp fun _ _ hwalk => descendants_eq_ok_iff.mpr ⟨depth, hwalk⟩

/-- `preorderWithin` lists a node exactly if children that it goes on to lead there. -/
theorem mem_preorderWithin_iff_entered {enter : NodeId → Form → Bool} {depth : Nat}
    (h : p.preorderWithin enter depth root = .ok found) :
    node ∈ found ↔ Relation.ReflTransGen (fun up down => down ∈ p.entered enter up) root node := by
  induction depth generalizing root found with
  | zero => cases h
  | succ depth ih =>
    obtain ⟨hroot, lists, hlists, rfl⟩ := preorderWithin_eq_ok_iff.mp h
    obtain ⟨hchildren, hfound⟩ := mapM_eq_ok hlists
    rw [List.mem_cons, List.mem_flatten]
    constructor
    · rintro (rfl | ⟨list, hlist, hnode⟩)
      · exact .refl
      · obtain ⟨child, hchild, hwalk⟩ := hfound list hlist
        exact .head hchild ((ih hwalk).mp hnode)
    · intro hbelow
      rcases hbelow.cases_head with rfl | ⟨child, hchild, hbelow⟩
      · exact .inl rfl
      · obtain ⟨list, hlist, hwalk⟩ := hchildren child hchild
        exact .inr ⟨list, hlist, (ih hwalk).mpr hbelow⟩

/-- `preorderWithin` lists the nodes below a node if it enters every node. -/
theorem mem_preorderWithin_iff {depth : Nat} (h : p.preorderWithin (fun _ _ => true) depth root = .ok found) :
    node ∈ found ↔ p.Below root node := by
  rw [mem_preorderWithin_iff_entered h, Below]
  simp only [entered_everywhere]

theorem mem_descendants_iff (h : p.descendants root = .ok found) : node ∈ found ↔ p.Below root node := by
  obtain ⟨depth, h⟩ := descendants_eq_ok_iff.mp h
  exact mem_preorderWithin_iff h

/-- `descendants` of a node that `preorderWithin` meets stand in one piece in what it lists. -/
theorem infix_of_mem_preorderWithin {depth : Nat} (h : p.preorderWithin (fun _ _ => true) depth root = .ok found)
    (hnode : node ∈ found) : ∃ inner, p.descendants node = .ok inner ∧ inner <:+: found := by
  induction depth generalizing root found with
  | zero => cases h
  | succ depth ih =>
    obtain ⟨-, lists, hlists, hfound⟩ := preorderWithin_eq_ok_iff.mp h
    subst hfound
    rcases List.mem_cons.mp hnode with rfl | hnode
    · exact ⟨_, descendants_eq_ok_iff.mpr ⟨_, h⟩, List.infix_rfl⟩
    · obtain ⟨list, hlist, hnode⟩ := List.mem_flatten.mp hnode
      obtain ⟨child, -, hwalk⟩ := (mapM_eq_ok hlists).2 list hlist
      obtain ⟨inner, hinner, hinfix⟩ := ih hwalk hnode
      have hpiece : list <:+: root :: lists.flatten :=
        (List.infix_of_mem_flatten hlist).trans (List.suffix_cons root _).isInfix
      exact ⟨inner, hinner, hinfix.trans hpiece⟩

/-! ## Forests -/

/-- Owners and children agree, no node lists a child twice, and the way up from every node ends. -/
structure IsForest (p : Tree) : Prop where
  linked : ∀ {id child}, p.parent? child = some id ↔ child ∈ p.children id
  distinct : ∀ id, (p.children id).Nodup
  rooted : ∀ {id}, id < p.size → ∃ above, p.ancestors id = .ok above

namespace IsForest

variable (hp : p.IsForest)

include hp

theorem isLinked : p.Linked where
  owned := hp.linked.mpr
  owner h := lt_size_of_child (hp.linked.mp h)
  rooted := hp.rooted

theorem height_child (h : child ∈ p.children node) : p.height child = p.height node + 1 :=
  hp.isLinked.height_eq_succ (hp.linked.mpr h)

/-- `Below root` holds of `root` and of the nodes whose `parent?` is at or below it. -/
theorem below_iff_parent : p.Below root node ↔ node = root ∨ ∃ up, p.parent? node = some up ∧ p.Below root up := by
  unfold Below
  rw [Relation.ReflTransGen.cases_tail_iff]
  constructor
  · rintro (rfl | ⟨up, hbelow, hchild⟩)
    · exact .inl rfl
    · exact .inr ⟨up, hp.linked.mpr hchild, hbelow⟩
  · rintro (rfl | ⟨up, hup, hbelow⟩)
    · exact .inl rfl
    · exact .inr ⟨up, hbelow, hp.linked.mp hup⟩

/-- `Below root` holds of `root` and of the nodes that have it among their `ancestorsWithin`. -/
theorem below_iff {steps : Nat} {above : List NodeId} (h : p.ancestorsWithin steps node = .ok above) :
    p.Below root node ↔ node = root ∨ root ∈ above := by
  induction steps generalizing node above with
  | zero =>
    rcases ancestorsWithin_eq_ok_iff.mp h with ⟨-, hroot, rfl⟩ | ⟨up, rest, below, -, -, hsteps, -⟩
    · rw [hp.below_iff_parent]
      simp [hroot]
    · omega
  | succ steps ih =>
    rcases ancestorsWithin_eq_ok_iff.mp h with ⟨-, hroot, rfl⟩ | ⟨up, rest, below, hup, rfl, hsteps, hrest⟩
    · rw [hp.below_iff_parent]
      simp [hroot]
    · obtain rfl : below = steps := by omega
      rw [hp.below_iff_parent, List.mem_cons]
      simp only [hup, Option.some.injEq, exists_eq_left', ih hrest]
      rw [@eq_comm _ up root]

theorem height_le_of_below (h : p.Below root node) : p.height root ≤ p.height node := by
  induction h with
  | refl => exact Nat.le_refl _
  | tail _ hchild ih =>
    rw [hp.height_child hchild]
    omega

/-- Two nodes of one `height` that have a node `Below` them in common are one. -/
theorem eq_of_below {other : NodeId} (h : p.Below root node) (hother : p.Below other node)
    (hheight : p.height root = p.height other) : root = other := by
  induction h with
  | refl =>
    rcases hp.below_iff_parent.mp hother with rfl | ⟨up, hup, hbelow⟩
    · rfl
    · -- the owner of the one would be at least as high as it
      have hup' := hp.isLinked.height_eq_succ hup
      have hle := hp.height_le_of_below hbelow
      omega
  | @tail up down hbelow hchild ih =>
    rcases hp.below_iff_parent.mp hother with rfl | ⟨up', hup', hbelow'⟩
    · have hup := hp.height_child hchild
      have hle := hp.height_le_of_below hbelow
      omega
    · -- the way up is the same for both
      obtain rfl : up' = up := Option.some.inj (hup'.symm.trans (hp.linked.mpr hchild))
      exact ih hbelow'

/-- What `preorderWithin` lists for different children of a node is pairwise `Disjoint`. -/
theorem pairwise_disjoint {depth : Nat} {nodes : List NodeId} {lists : List (List NodeId)}
    (hwalks : List.Forall₂ (fun id list => p.preorderWithin (fun _ _ => true) depth id = .ok list) nodes lists)
    (hnodes : nodes.Nodup) (hchildren : ∀ id ∈ nodes, id ∈ p.children root) : lists.Pairwise List.Disjoint := by
  induction hwalks with
  | nil => exact .nil
  | @cons id list nodes lists hwalk hwalks ih =>
    rw [List.nodup_cons] at hnodes
    rw [List.forall_mem_cons] at hchildren
    refine .cons (fun list' hlist' x hx hx' => ?_) (ih hnodes.2 hchildren.2)
    obtain ⟨id', hid', hwalk'⟩ := (mapM_eq_ok (mapM_of_forall₂ hwalks)).2 list' hlist'
    have hheight : p.height id = p.height id' := by
      rw [hp.height_child hchildren.1, hp.height_child (hchildren.2 id' hid')]
    have heq := hp.eq_of_below ((mem_preorderWithin_iff hwalk).mp hx) ((mem_preorderWithin_iff hwalk').mp hx') hheight
    exact hnodes.1 (heq ▸ hid')

/-- `preorderWithin` lists no node after one that is `Below` it, so none twice. -/
theorem pairwise_preorderWithin {depth : Nat} (h : p.preorderWithin (fun _ _ => true) depth root = .ok found) :
    found.Pairwise fun earlier later => ¬ p.Below later earlier := by
  induction depth generalizing root found with
  | zero => cases h
  | succ depth ih =>
    obtain ⟨-, lists, hlists, rfl⟩ := preorderWithin_eq_ok_iff.mp h
    rw [entered_everywhere] at hlists
    rw [List.pairwise_cons, List.pairwise_flatten]
    refine ⟨fun later hlater hbelow => ?_, fun list hlist => ?_, ?_⟩
    · -- the first node is not below what is listed for its children, which are higher
      obtain ⟨list, hlist, hlater⟩ := List.mem_flatten.mp hlater
      obtain ⟨child, hchild, hwalk⟩ := (mapM_eq_ok hlists).2 list hlist
      have hle := hp.height_le_of_below (((mem_preorderWithin_iff hwalk).mp hlater).trans hbelow)
      have hup := hp.height_child hchild
      omega
    · obtain ⟨child, -, hwalk⟩ := (mapM_eq_ok hlists).2 list hlist
      exact ih hwalk
    · -- what is below a node that is listed for one child is listed for that child, and for no other
      have hdisjoint := hp.pairwise_disjoint (forall₂_of_mapM hlists) (hp.distinct root) fun _ hid => hid
      refine hdisjoint.imp_of_mem fun {_ list} _ hlist hcommon earlier hearlier later hlater hbelow => ?_
      obtain ⟨child, -, hwalk⟩ := (mapM_eq_ok hlists).2 list hlist
      have hchild := (mem_preorderWithin_iff hwalk).mp hlater
      exact hcommon hearlier ((mem_preorderWithin_iff hwalk).mpr (hchild.trans hbelow))

end IsForest

/-! ## Owners that outrank their children -/

/-- `ancestorsWithin` needs as many steps as there are nodes on the way. -/
theorem ancestorsWithin_of_length {steps more : Nat} {above : List NodeId}
    (h : p.ancestorsWithin steps node = .ok above) (hle : above.length ≤ more) :
    p.ancestorsWithin more node = .ok above := by
  induction steps generalizing node above more with
  | zero =>
    rcases ancestorsWithin_eq_ok_iff.mp h with hroot | ⟨up, rest, below, -, -, hsteps, -⟩
    · exact ancestorsWithin_eq_ok_iff.mpr (.inl hroot)
    · omega
  | succ steps ih =>
    rcases ancestorsWithin_eq_ok_iff.mp h with hroot | ⟨up, rest, below, hup, rfl, hsteps, hrest⟩
    · exact ancestorsWithin_eq_ok_iff.mpr (.inl hroot)
    · obtain rfl : below = steps := by omega
      rw [List.length_cons] at hle
      obtain ⟨more, rfl⟩ : ∃ k, more = k + 1 := ⟨more - 1, by omega⟩
      exact ancestorsWithin_eq_ok_iff.mpr (.inr ⟨up, rest, more, hup, rfl, rfl, ih hrest (by omega)⟩)

/-- If owners outrank their children and `rank` is bounded, then `ancestorsWithin` ends from every node, and it meets no
node twice. -/
theorem exists_ancestorsWithin {rank : NodeId → Nat} {bound : Nat}
    (hsize : ∀ {id up}, p.parent? id = some up → up < p.size)
    (hrank : ∀ {id up}, p.parent? id = some up → rank id < rank up) (hbound : ∀ id, rank id ≤ bound) {steps : Nat}
    (hsteps : bound ≤ rank node + steps) (hnode : node < p.size) :
    ∃ above, p.ancestorsWithin steps node = .ok above ∧ above.Nodup ∧
      ∀ up ∈ above, rank node < rank up ∧ up < p.size := by
  induction steps generalizing node with
  | zero =>
    cases hparent : p.parent? node with
    | none => exact ⟨[], ancestorsWithin_eq_ok_iff.mpr (.inl ⟨hnode, hparent, rfl⟩), .nil, by simp⟩
    | some up =>
      have hlt := hrank hparent
      have hle := hbound up
      omega
  | succ steps ih =>
    cases hparent : p.parent? node with
    | none => exact ⟨[], ancestorsWithin_eq_ok_iff.mpr (.inl ⟨hnode, hparent, rfl⟩), .nil, by simp⟩
    | some up =>
      have hlt := hrank hparent
      obtain ⟨above, habove, hdistinct, hhigher⟩ := ih (by omega) (hsize hparent)
      refine ⟨up :: above, ancestorsWithin_eq_ok_iff.mpr (.inr ⟨up, above, steps, hparent, rfl, rfl, habove⟩), ?_, ?_⟩
      · refine List.nodup_cons.mpr ⟨fun hmem => ?_, hdistinct⟩
        exact Nat.lt_irrefl _ (hhigher up hmem).1
      · refine List.forall_mem_cons.mpr ⟨⟨hlt, hsize hparent⟩, fun other hother => ?_⟩
        exact ⟨Nat.lt_trans hlt (hhigher other hother).1, (hhigher other hother).2⟩

theorem IsForest.of_rank {rank : NodeId → Nat} {bound : Nat}
    (linked : ∀ {id child}, p.parent? child = some id ↔ child ∈ p.children id)
    (distinct : ∀ id, (p.children id).Nodup) (hrank : ∀ {id child}, child ∈ p.children id → rank child < rank id)
    (hbound : ∀ id, rank id ≤ bound) : p.IsForest where
  linked := linked
  distinct := distinct
  rooted {id} hid := by
    have hsize {id up : NodeId} (h : p.parent? id = some up) : up < p.size := lt_size_of_child (linked.mp h)
    obtain ⟨above, habove, hdistinct, hhigher⟩ :=
      exists_ancestorsWithin hsize (fun h => hrank (linked.mp h)) hbound (Nat.le_add_left bound (rank id)) hid
    -- no node is met twice, so the walk takes no more steps than there are nodes
    refine ⟨above, ancestorsWithin_of_length habove ?_⟩
    have hsubset : above ⊆ List.range p.size := fun up hup => List.mem_range.mpr (hhigher up hup).2
    simpa using (List.subperm_of_subset hdistinct hsubset).length_le

/-! ## Checking a forest -/

/-- Whether a node and its children own each other as in a forest. -/
def isForestAt (p : Tree) (id : NodeId) : Bool :=
  (p.children id).all (p.parent? · == some id) && (p.parent? id).all (fun up => (p.children up).contains id) &&
    decide (p.children id).Nodup && (p.ancestors id).toOption.isSome

theorem IsForest.of_forall (h : (List.range p.size).all p.isForestAt = true) : p.IsForest := by
  have at_node {id : NodeId} (hid : id < p.size) : p.isForestAt id = true :=
    List.all_eq_true.mp h id (List.mem_range.mpr hid)
  simp only [isForestAt, Bool.and_eq_true, List.all_eq_true, beq_iff_eq, decide_eq_true_eq] at at_node
  refine ⟨fun {id child} => ⟨fun hparent => ?_, fun hchild => ?_⟩, fun id => ?_, fun {id} hid => ?_⟩
  · have hlisted := (at_node (lt_size_of_parent? hparent)).1.1.2
    simpa [hparent] using hlisted
  · exact (at_node (lt_size_of_child hchild)).1.1.1 child hchild
  · by_cases hid : id < p.size
    · exact (at_node hid).1.2
    · rw [List.eq_nil_iff_forall_not_mem.mpr fun child hchild => hid (lt_size_of_child hchild)]
      exact .nil
  · have hsome := (at_node hid).2
    cases habove : p.ancestors id with
    | ok above => exact ⟨above, rfl⟩
    | error fault => simp [habove, Except.toOption] at hsome

end Ascribe.Tree
