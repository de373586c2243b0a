import Ascribe.Proofs.Tree.Forest
import Ascribe.Typing.Signature

/-!
# The statements of a body

What leaves a body is found by a walk over its nodes that does not go on below a function, a method or a lambda: their
statements are their own. The body itself may be one of them, and is always entered. So a node is met exactly if no
function, method or lambda lies between the body and the node, wherever in the body it stands.

## Key results

- `Tree.preorderWithin_sublist`: a walk that leaves nodes out keeps the order of those that are left
- `Tree.IsForest.entered_iff`: which nodes a walk that does not go on everywhere leads to
- `Tree.IsForest.mem_collect_iff`: the nodes that `Tree.collect` finds
- `Tree.IsForest.own_statements`: the wanted nodes of a body, and the values that leave it
-/

namespace Ascribe

namespace Tree

variable {p : Tree} {root node body : NodeId}

/-- `goesOn body` holds at the nodes of the tree that are `body` or do not satisfy `Form.opensBody`. -/
theorem isAt_goesOn_iff {id : NodeId} :
    p.isAt (goesOn body id) id = true ↔ id < p.size ∧ (id ≠ body → p.isAt Form.opensBody id = false) := by
  by_cases hid : id < p.size
  · obtain ⟨form, -, hform⟩ := form_ok hid
    simp [isAt, goesOn, hform, hid, or_iff_not_imp_left]
  · have hform : p.form? id = none := by
      rw [Option.eq_none_iff_forall_ne_some]
      exact fun form hform => hid (lt_size_of_form? hform)
    simp [isAt, hform, hid]

/-- A node lies strictly between two others on the way down from the first to the second. -/
structure Between (p : Tree) (top bottom node : NodeId) : Prop where
  below : p.Below top node
  ne_top : node ≠ top
  above : p.Below node bottom
  ne_bottom : node ≠ bottom

/-! ## Walks that do not go on everywhere -/

/-- Walks by `mapM` whose lists are sublists one by one have a flattened list that is a `Sublist`. -/
theorem sublist_flatten {f g : NodeId → Except Fault (List NodeId)}
    (h : ∀ id list list', f id = .ok list → g id = .ok list' → list.Sublist list') {nodes : List NodeId}
    {lists lists' : List (List NodeId)} (hlists : nodes.mapM f = .ok lists) (hlists' : nodes.mapM g = .ok lists') :
    lists.flatten.Sublist lists'.flatten := by
  induction nodes generalizing lists lists' with
  | nil =>
    cases hlists
    exact List.nil_sublist _
  | cons id rest ih =>
    rw [List.mapM_cons] at hlists hlists'
    obtain ⟨list, hlist, hlists⟩ := bind_eq_ok.mp hlists
    obtain ⟨more, hmore, hlists⟩ := bind_eq_ok.mp hlists
    obtain ⟨list', hlist', hlists'⟩ := bind_eq_ok.mp hlists'
    obtain ⟨more', hmore', hlists'⟩ := bind_eq_ok.mp hlists'
    cases hlists
    cases hlists'
    exact (h id list list' hlist hlist').append (ih hmore hmore')

/-- `preorderWithin enter` lists a `Sublist` of what it lists when it goes on everywhere. -/
theorem preorderWithin_sublist {enter : NodeId → Form → Bool} {depth : Nat} {found all : List NodeId}
    (h : p.preorderWithin enter depth root = .ok found)
    (hall : p.preorderWithin (fun _ _ => true) depth root = .ok all) : found.Sublist all := by
  induction depth generalizing root found all with
  | zero => cases h
  | succ depth ih =>
    obtain ⟨-, lists, hlists, rfl⟩ := preorderWithin_eq_ok_iff.mp h
    obtain ⟨-, lists', hlists', rfl⟩ := preorderWithin_eq_ok_iff.mp hall
    rw [entered_everywhere] at hlists'
    refine .cons_cons root ?_
    unfold entered at hlists
    split at hlists
    · exact sublist_flatten (fun _ _ _ => ih) hlists hlists'
    · cases hlists
      exact List.nil_sublist _

/-- `collect` lists nodes in the order in which `descendants` does. -/
theorem collect_sublist {wanted : Form → Bool} {found all : List NodeId} (h : p.collect wanted body = .ok found)
    (hall : p.descendants body = .ok all) : found.Sublist all := by
  obtain ⟨depth, nodes, hnodes, rfl⟩ := collect_eq_ok_iff.mp h
  obtain ⟨depth', hall⟩ := descendants_eq_ok_iff.mp hall
  have hsublist := preorderWithin_sublist (preorderWithin_size hnodes) (preorderWithin_size hall)
  exact List.filter_sublist.trans hsublist

namespace IsForest

variable (hp : p.IsForest)

include hp

/-- `Below` is antisymmetric. -/
theorem below_antisymm {a b : NodeId} (hab : p.Below a b) (hba : p.Below b a) : a = b := by
  have hle := hp.height_le_of_below hab
  have hle' := hp.height_le_of_below hba
  exact hp.eq_of_below hab .refl (by omega)

/-- A node that is `Below` a child of `root` is not `root`. -/
theorem ne_of_below_child {child : NodeId} (hchild : child ∈ p.children root) (h : p.Below child node) :
    node ≠ root := by
  rintro rfl
  have hle := hp.height_le_of_below h
  rw [hp.height_child hchild] at hle
  omega

/-- Every node other than `root` that is `Below` it and above `node` is below the child on the way to `node`. -/
theorem below_child {child a : NodeId} (hchild : child ∈ p.children root) (hnode : p.Below child node)
    (hbelow : p.Below root a) (habove : p.Below a node) (hne : a ≠ root) : p.Below child a := by
  rcases hbelow.cases_head with rfl | ⟨child', hchild', hbelow⟩
  · exact absurd rfl hne
  · have hheight : p.height child' = p.height child := by
      rw [hp.height_child hchild', hp.height_child hchild]
    obtain rfl := hp.eq_of_below (hbelow.trans habove) hnode hheight
    exact hbelow

/-- The nodes reached by `entered` are those `Below` the root such that `enter` holds at every node above them. -/
theorem entered_iff {enter : NodeId → Form → Bool} :
    Relation.ReflTransGen (fun up down => down ∈ p.entered enter up) root node ↔
      p.Below root node ∧ ∀ a, p.Below root a → p.Below a node → a ≠ node → p.isAt (enter a) a = true := by
  constructor
  · intro h
    induction h using Relation.ReflTransGen.head_induction_on with
    | refl => exact ⟨.refl, fun a hbelow habove hne => absurd (hp.below_antisymm habove hbelow) hne⟩
    | @head root child hchild _ ih =>
      -- what lies on the way is the start itself, or lies on the way from the child
      obtain ⟨henter, hchild⟩ := mem_entered.mp hchild
      obtain ⟨hnode, hpassed⟩ := ih
      refine ⟨.head hchild hnode, fun a hbelow habove hne => ?_⟩
      by_cases hroot : a = root
      · rw [hroot]
        exact henter
      · exact hpassed a (hp.below_child hchild hnode hbelow habove hroot) habove hne
  · rintro ⟨hnode, hpassed⟩
    induction hnode using Relation.ReflTransGen.head_induction_on with
    | refl => exact .refl
    | @head root child hchild hnode ih =>
      have henter := hpassed root .refl (.head hchild hnode) (hp.ne_of_below_child hchild hnode).symm
      exact .head (mem_entered.mpr ⟨henter, hchild⟩) (ih fun a hbelow => hpassed a (.head hchild hbelow))

/-- `collect` finds the nodes of a wanted form below a body such that no function, method or lambda lies between the
body and them. -/
theorem mem_collect_iff {wanted : Form → Bool} {found : List NodeId} (h : p.collect wanted body = .ok found) :
    node ∈ found ↔ p.Below body node ∧ p.isAt wanted node = true ∧
      ∀ a, p.Between body node a → p.isAt Form.opensBody a = false := by
  obtain ⟨depth, nodes, hnodes, rfl⟩ := collect_eq_ok_iff.mp h
  rw [List.mem_filter, mem_preorderWithin_iff_entered hnodes, hp.entered_iff, and_right_comm, and_assoc]
  refine and_congr_right fun hnode => and_congr_right fun _ => ?_
  constructor
  · intro hpassed a ha
    exact (isAt_goesOn_iff.mp (hpassed a ha.below ha.above ha.ne_bottom)).2 ha.ne_top
  · intro hnone a hbelow habove hne
    -- a node with another one below it has children, so it is there
    have hsize : a < p.size := by
      rcases habove.cases_head with heq | ⟨next, hnext, -⟩
      · exact absurd heq hne
      · exact lt_size_of_child hnext
    exact isAt_goesOn_iff.mpr ⟨hsize, fun htop => hnone a ⟨hbelow, htop, habove, hne⟩⟩

end IsForest

/-! ## What a body finds -/

/-- `collect` finds the nodes of a body that have a wanted form: exactly those nodes below it, in the order in which the
walk down meets them and each once, such that no function, method or lambda lies strictly between the body and the node.
`visit` finds the same nodes in however many steps its stack is emptied. The values that leave the body are those of the
nodes that are found for `yield` in a coroutine, and for `return` in any other function. -/
theorem IsForest.own_statements (hp : p.IsForest) (hbody : body < p.size) :
    ∃ all, p.descendants body = .ok all ∧
      (∀ wanted, ∃ found, p.collect wanted body = .ok found ∧
        (∀ steps result, p.visit wanted (goesOn body) steps [body] #[] = .ok result → result.toList = found) ∧
        found.Sublist all ∧ found.Nodup ∧
        ∀ n, n ∈ found ↔ n ∈ all ∧ p.isAt wanted n = true ∧
          ∀ a, p.Between body n a → p.isAt Form.opensBody a = false) ∧
      ∀ kind c, ∃ found, p.collect (Form.leaves kind) body = .ok found ∧
        (Typing.bodyValues p kind body).run c =
          .ok (found.map fun n => (p.form? n).bind Form.leavingValue?, c) := by
  obtain ⟨all, hall⟩ := hp.isLinked.descendants_ok hbody
  have hdistinct : all.Nodup := by
    obtain ⟨depth, hpreorder⟩ := descendants_eq_ok_iff.mp hall
    refine (hp.pairwise_preorderWithin hpreorder).imp ?_
    rintro earlier _ hbelow rfl
    exact hbelow .refl
  refine ⟨all, hall, fun wanted => ?_, fun kind c => ?_⟩
  · obtain ⟨found, hfound⟩ := hp.isLinked.collect_ok wanted hbody
    have hsublist := collect_sublist hfound hall
    refine ⟨found, hfound, fun steps result hvisit => ?_, hsublist, hdistinct.sublist hsublist, fun n => ?_⟩
    · exact Except.ok.inj ((collect_of_visit hvisit).symm.trans hfound)
    · rw [hp.mem_collect_iff hfound, mem_descendants_iff hall]
  · obtain ⟨found, hfound⟩ := hp.isLinked.collect_ok (Form.leaves kind) hbody
    refine ⟨found, hfound, ?_⟩
    rw [Typing.bodyValues, hfound]
    rfl

/-- The body of a coroutine that is a lambda, in which a lambda with a `yield` of its own stands between two others. -/
def nestedYields : Tree where
  nodes := #[
    { form := .int "1", parent := some 1 },
    { form := .yieldExpr (some 0), parent := some 7 },
    { form := .int "2", parent := some 3 },
    { form := .yieldExpr (some 2), parent := some 4 },
    { form := .lambda { body := 3 }, parent := some 7 },
    { form := .int "3", parent := some 6 },
    { form := .yieldExpr (some 5), parent := some 7 },
    { form := .block [1, 4, 6], parent := some 8 },
    { form := .lambda { body := 7 } }]

/-- The first and the last `yield` belong to the body, although it is a lambda. The one in between does not, since the
inner lambda lies between the body and it. -/
theorem nestedYields_own :
    nestedYields.IsForest ∧ nestedYields.descendants 8 = .ok [8, 7, 1, 0, 4, 3, 2, 6, 5] ∧
      nestedYields.collect (Form.leaves .coroutine) 8 = .ok [1, 6] ∧
      (∀ a, nestedYields.Between 8 6 a → nestedYields.isAt Form.opensBody a = false) ∧
      ∃ a, nestedYields.Between 8 3 a ∧ nestedYields.isAt Form.opensBody a = true := by
  have hforest : nestedYields.IsForest := .of_forall (by decide +kernel)
  have hdescendants : nestedYields.descendants 8 = .ok [8, 7, 1, 0, 4, 3, 2, 6, 5] := rfl
  have hcollect : nestedYields.collect (Form.leaves .coroutine) 8 = .ok [1, 6] := rfl
  have hbody : 8 < nestedYields.size := by decide
  obtain ⟨all, hall, hwanted, -⟩ := IsForest.own_statements hforest hbody
  obtain ⟨found, hfound, -, -, -, hmem⟩ := hwanted (Form.leaves .coroutine)
  obtain rfl := Except.ok.inj (hdescendants.symm.trans hall)
  obtain rfl := Except.ok.inj (hcollect.symm.trans hfound)
  refine ⟨hforest, hdescendants, hcollect, ((hmem 6).mp (by decide)).2.2, ?_⟩
  -- the middle one is below the body and a `yield`, so only what lies between keeps it out
  have hmiddle := (hmem 3).not.mp (by decide)
  by_contra hnone
  refine hmiddle ⟨by decide, by decide, fun a ha => ?_⟩
  exact Bool.eq_false_iff.mpr fun hopens => hnone ⟨a, ha, hopens⟩

end Tree

end Ascribe
