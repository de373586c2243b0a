import Mathlib.Data.List.Perm.Subperm
import Mathlib.Order.Nat
import Ascribe.Proofs.Search.Returns
import Ascribe.Tree.Basic

/-!
# Walks down a tree

`Tree.visit` works off a stack: it takes the node on top, and puts the children of that node in its place. What it
finds for a node is best described by recursion: `Tree.preorderWithin` lists a node, and after it what is listed for the
children, one child after another. The two agree whatever else is on the stack, so the walk that works off a stack ends
exactly if the recursion does, and `Tree.visitLimit` steps are enough for it whenever any number of steps is.

## Key results

- `Tree.visit_append`: a walk with the stack finds what the recursion lists, and goes on with the rest of the stack
- `Tree.exists_preorderWithin_of_visit`: if a walk with the stack ends, so does the recursion
- `Tree.preorderWithin_size`: a recursion that ends goes no deeper than there are nodes
- `Tree.visit_limit_of_visit`: `visitLimit` steps are enough for a walk that ends
- `Tree.descendants_eq_ok_iff`, `Tree.collect_eq_ok_iff`: the two walks of a checker
-/

namespace Ascribe.Tree

variable {p : Tree} {id child : NodeId} {form : Form}

/-! ## Positions -/

theorem lt_size_iff : id < p.size ↔ ∃ n, p.node? id = some n := by
  rw [node?, size, ← Option.isSome_iff_exists, isSome_getElem?]

theorem lt_size_of_form? (h : p.form? id = some form) : id < p.size := by
  obtain ⟨n, hn, -⟩ := Option.map_eq_some_iff.mp h
  exact lt_size_iff.mpr ⟨n, hn⟩

theorem lt_size_of_parent? {up : NodeId} (h : p.parent? id = some up) : id < p.size := by
  obtain ⟨n, hn, -⟩ := Option.bind_eq_some_iff.mp h
  exact lt_size_iff.mpr ⟨n, hn⟩

theorem lt_size_of_child (h : child ∈ p.children id) : id < p.size := by
  unfold children at h
  split at h
  · next form hform => exact lt_size_of_form? hform
  · cases h

theorem form_ok (h : id < p.size) : ∃ form, p.form id = .ok form ∧ p.form? id = some form := by
  obtain ⟨n, hn⟩ := lt_size_iff.mp h
  refine ⟨n.form, ?_, ?_⟩
  · simp only [Tree.form, node, hn]
    rfl
  · simp [form?, hn]

theorem form?_eq_some_of_form (h : p.form id = .ok form) : p.form? id = some form := by
  cases hnode : p.node? id with
  | none =>
    rw [Tree.form, node, hnode] at h
    cases h
  | some n =>
    rw [Tree.form, node, hnode] at h
    rw [form?, hnode, ← Except.ok.inj h]
    rfl

theorem node_ok (h : id < p.size) : ∃ n, p.node id = .ok n ∧ n.parent = p.parent? id := by
  obtain ⟨n, hn⟩ := lt_size_iff.mp h
  exact ⟨n, by rw [node, hn], by simp [parent?, hn]⟩

theorem children_eq (h : p.form? id = some form) : p.children id = form.children := by
  simp [children, h]

/-- Whether there is a node of a wanted form at a position. -/
def isAt (p : Tree) (wanted : Form → Bool) (id : NodeId) : Bool :=
  (p.form? id).any wanted

/-! ## Lists of walks -/

/-- Walks that all succeed under `mapM` give one list for each node, in order. -/
theorem forall₂_of_mapM {f : NodeId → Except Fault (List NodeId)} {nodes : List NodeId} {lists : List (List NodeId)}
    (h : nodes.mapM f = .ok lists) : List.Forall₂ (fun id list => f id = .ok list) nodes lists := by
  induction nodes generalizing lists with
  | nil =>
    cases h
    exact .nil
  | cons id rest ih =>
    rw [List.mapM_cons] at h
    obtain ⟨list, hlist, h⟩ := bind_eq_ok.mp h
    obtain ⟨lists, hlists, h⟩ := bind_eq_ok.mp h
    cases h
    exact .cons hlist (ih hlists)

/-- `mapM` gives the lists that the walks give one by one. -/
theorem mapM_of_forall₂ {f : NodeId → Except Fault (List NodeId)} {nodes : List NodeId} {lists : List (List NodeId)}
    (h : List.Forall₂ (fun id list => f id = .ok list) nodes lists) : nodes.mapM f = .ok lists := by
  induction h with
  | nil => rfl
  | cons hlist _ ih =>
    rw [List.mapM_cons, hlist, ih]
    rfl

/-- `mapM` succeeds if the walk from each node does. -/
theorem mapM_ok {f : NodeId → Except Fault (List NodeId)} {nodes : List NodeId}
    (h : ∀ id ∈ nodes, ∃ list, f id = .ok list) : ∃ lists, nodes.mapM f = .ok lists := by
  induction nodes with
  | nil => exact ⟨[], rfl⟩
  | cons id rest ih =>
    rw [List.forall_mem_cons] at h
    obtain ⟨list, hlist⟩ := h.1
    obtain ⟨lists, hlists⟩ := ih h.2
    refine ⟨list :: lists, ?_⟩
    rw [List.mapM_cons, hlist, hlists]
    rfl

/-- `mapM` gives a list for each node, and none besides. -/
theorem mapM_eq_ok {f : NodeId → Except Fault (List NodeId)} {nodes : List NodeId} {found : List (List NodeId)}
    (h : nodes.mapM f = .ok found) :
    (∀ id ∈ nodes, ∃ list ∈ found, f id = .ok list) ∧ ∀ list ∈ found, ∃ id ∈ nodes, f id = .ok list := by
  induction nodes generalizing found with
  | nil =>
    cases h
    simp
  | cons id rest ih =>
    rw [List.mapM_cons] at h
    obtain ⟨list, hlist, h⟩ := bind_eq_ok.mp h
    obtain ⟨lists, hlists, h⟩ := bind_eq_ok.mp h
    cases h
    obtain ⟨hnodes, hfound⟩ := ih hlists
    refine ⟨List.forall_mem_cons.mpr ⟨⟨list, List.mem_cons_self, hlist⟩, fun other hother => ?_⟩,
      List.forall_mem_cons.mpr ⟨⟨id, List.mem_cons_self, hlist⟩, fun other hother => ?_⟩⟩
    · obtain ⟨list', hmem, hlist'⟩ := hnodes other hother
      exact ⟨list', List.mem_cons_of_mem _ hmem, hlist'⟩
    · obtain ⟨id', hmem, hid'⟩ := hfound other hother
      exact ⟨id', List.mem_cons_of_mem _ hmem, hid'⟩

/-! ## The recursion -/

/-- The nodes at and below a node in preorder, down to a given depth. The children of a node are listed only if `enter`
lets the walk in. -/
def preorderWithin (p : Tree) (enter : NodeId → Form → Bool) : Nat → NodeId → Except Fault (List NodeId)
  | 0, _ => throw .tooDeep
  | depth + 1, id => do
    let form ← p.form id
    if enter id form then
      let below ← form.children.mapM (p.preorderWithin enter depth)
      return id :: below.flatten
    else
      return [id]

/-- The children that a walk down goes on to. -/
def entered (p : Tree) (enter : NodeId → Form → Bool) (id : NodeId) : List NodeId :=
  if p.isAt (enter id) id then p.children id else []

variable {enter : NodeId → Form → Bool} {wanted : Form → Bool} {nodes : List NodeId} {depth : Nat}

theorem mem_entered : child ∈ p.entered enter id ↔ p.isAt (enter id) id = true ∧ child ∈ p.children id := by
  unfold entered
  split
  · next h => simp [h]
  · next h => simp [h]

@[simp] theorem entered_everywhere (p : Tree) (id : NodeId) : p.entered (fun _ _ => true) id = p.children id := by
  unfold entered isAt children
  cases p.form? id <;> rfl

/-- What `preorderWithin` lists: the node, and after it what is listed for the children that it goes on to. -/
theorem preorderWithin_eq_ok_iff :
    p.preorderWithin enter (depth + 1) id = .ok nodes ↔
      id < p.size ∧ ∃ lists, (p.entered enter id).mapM (p.preorderWithin enter depth) = .ok lists ∧
        nodes = id :: lists.flatten := by
  rw [preorderWithin, bind_eq_ok]
  constructor
  · rintro ⟨form, hform, h⟩
    have hform? := form?_eq_some_of_form hform
    refine ⟨lt_size_of_form? hform?, ?_⟩
    rw [entered, isAt, hform?, Option.any_some, children_eq hform?]
    split at h
    · next henter =>
      obtain ⟨lists, hlists, h⟩ := bind_eq_ok.mp h
      cases h
      exact ⟨lists, by rwa [if_pos henter], rfl⟩
    · next henter =>
      cases h
      exact ⟨[], by rw [if_neg henter]; rfl, rfl⟩
  · rintro ⟨hid, lists, hlists, rfl⟩
    obtain ⟨form, hform, hform?⟩ := form_ok hid
    rw [entered, isAt, hform?, Option.any_some, children_eq hform?] at hlists
    refine ⟨form, hform, ?_⟩
    split
    · next henter =>
      rw [if_pos henter] at hlists
      exact bind_eq_ok.mpr ⟨lists, hlists, rfl⟩
    · next henter =>
      rw [if_neg henter] at hlists
      cases hlists
      rfl

/-- `preorderWithin` can be given more depth once it ends. -/
theorem preorderWithin_mono {more : Nat} (hle : depth ≤ more) (h : p.preorderWithin enter depth id = .ok nodes) :
    p.preorderWithin enter more id = .ok nodes := by
  induction depth generalizing more id nodes with
  | zero => cases h
  | succ depth ih =>
    obtain ⟨more, rfl⟩ : ∃ k, more = k + 1 := ⟨more - 1, by omega⟩
    obtain ⟨hid, lists, hlists, rfl⟩ := preorderWithin_eq_ok_iff.mp h
    apply preorderWithin_eq_ok_iff.mpr
    refine ⟨hid, lists, mapM_of_forall₂ ?_, rfl⟩
    exact (forall₂_of_mapM hlists).imp fun _ _ hwalk => ih (by omega) hwalk

theorem mapM_preorderWithin_mono {more : Nat} (hle : depth ≤ more) {lists : List (List NodeId)}
    (h : nodes.mapM (p.preorderWithin enter depth) = .ok lists) :
    nodes.mapM (p.preorderWithin enter more) = .ok lists :=
  mapM_of_forall₂ ((forall₂_of_mapM h).imp fun _ _ hwalk => preorderWithin_mono hle hwalk)

/-- What `preorderWithin` lists does not depend on the depth at which it ends. -/
theorem preorderWithin_unique {depth' : Nat} {nodes' : List NodeId} (h : p.preorderWithin enter depth id = .ok nodes)
    (h' : p.preorderWithin enter depth' id = .ok nodes') : nodes = nodes' := by
  have hmore := preorderWithin_mono (Nat.le_max_left depth depth') h
  have hmore' := preorderWithin_mono (Nat.le_max_right depth depth') h'
  exact Except.ok.inj (hmore.symm.trans hmore')

theorem lt_size_of_mem_preorderWithin (h : p.preorderWithin enter depth id = .ok nodes) : ∀ n ∈ nodes, n < p.size := by
  induction depth generalizing id nodes with
  | zero => cases h
  | succ depth ih =>
    obtain ⟨hid, lists, hlists, rfl⟩ := preorderWithin_eq_ok_iff.mp h
    refine List.forall_mem_cons.mpr ⟨hid, fun n hn => ?_⟩
    obtain ⟨list, hlist, hn⟩ := List.mem_flatten.mp hn
    obtain ⟨child, -, hwalk⟩ := (mapM_eq_ok hlists).2 list hlist
    exact ih hwalk n hn

/-! ## The depth of a walk -/

/-- If `preorderWithin` needs `depth + 1`, then so many nodes lie on a way down, one below the other. -/
theorem exists_way_down (h : p.preorderWithin enter (depth + 1) id = .ok nodes)
    (hneeded : ∀ nodes, p.preorderWithin enter depth id ≠ .ok nodes) :
    ∃ way : List NodeId, way.length = depth + 1 ∧ way.Nodup ∧
      ∀ n ∈ way, n < p.size ∧ ∃ nodes, p.preorderWithin enter (depth + 1) n = .ok nodes := by
  induction depth generalizing id nodes with
  | zero =>
    obtain ⟨hid, -⟩ := preorderWithin_eq_ok_iff.mp h
    exact ⟨[id], rfl, List.pairwise_singleton _ id, List.forall_mem_singleton.mpr ⟨hid, nodes, h⟩⟩
  | succ depth ih =>
    obtain ⟨hid, lists, hlists, -⟩ := preorderWithin_eq_ok_iff.mp h
    -- one of the children needs all the depth that is left
    obtain ⟨child, hchild, hchildNeeds⟩ : ∃ child ∈ p.entered enter id,
        ∀ nodes, p.preorderWithin enter depth child ≠ .ok nodes := by
      by_contra hnone
      push Not at hnone
      obtain ⟨lists', hlists'⟩ := mapM_ok hnone
      exact hneeded _ (preorderWithin_eq_ok_iff.mpr ⟨hid, lists', hlists', rfl⟩)
    obtain ⟨list, -, hwalk⟩ := (mapM_eq_ok hlists).1 child hchild
    obtain ⟨way, hlength, hdistinct, hway⟩ := ih hwalk hchildNeeds
    have hnew : id ∉ way := by
      intro hmem
      obtain ⟨-, nodes', hnodes'⟩ := hway id hmem
      exact hneeded nodes' hnodes'
    refine ⟨id :: way, by rw [List.length_cons, hlength], List.nodup_cons.mpr ⟨hnew, hdistinct⟩, ?_⟩
    refine List.forall_mem_cons.mpr ⟨⟨hid, nodes, h⟩, fun n hn => ?_⟩
    obtain ⟨hlt, nodes', hnodes'⟩ := hway n hn
    exact ⟨hlt, nodes', preorderWithin_mono (by omega) hnodes'⟩

/-- `preorderWithin` goes no deeper than there are nodes. -/
theorem preorderWithin_size (h : p.preorderWithin enter depth id = .ok nodes) :
    p.preorderWithin enter p.size id = .ok nodes := by
  induction depth with
  | zero => cases h
  | succ depth ih =>
    by_cases hless : ∃ nodes, p.preorderWithin enter depth id = .ok nodes
    · obtain ⟨nodes', hnodes'⟩ := hless
      obtain rfl := preorderWithin_unique h hnodes'
      exact ih hnodes'
    · -- the nodes on the way down are different ones
      obtain ⟨way, hlength, hdistinct, hway⟩ := exists_way_down h (not_exists.mp hless)
      have hsubset : way ⊆ List.range p.size := fun n hn => List.mem_range.mpr (hway n hn).1
      have hle : way.length ≤ p.size := by simpa using (List.subperm_of_subset hdistinct hsubset).length_le
      exact preorderWithin_mono (hlength ▸ hle) h

/-! ## How many nodes are visited -/

theorem length_children_le (p : Tree) (id : NodeId) : (p.children id).length ≤ p.links := by
  unfold children
  split
  · next form hform =>
    obtain ⟨n, hn, rfl⟩ := Option.map_eq_some_iff.mp hform
    have hmem : n ∈ p.nodes.toList := Array.mem_toList_iff.mpr (Array.mem_of_getElem? hn)
    rw [links, List.flatMap_def]
    exact (List.infix_of_mem_flatten (List.mem_map_of_mem (f := (·.form.children)) hmem)).length_le
  · exact Nat.zero_le _

theorem length_entered_le (p : Tree) (enter : NodeId → Form → Bool) (id : NodeId) :
    (p.entered enter id).length ≤ p.links := by
  unfold entered
  split
  · exact p.length_children_le id
  · exact Nat.zero_le _

theorem length_flatten_le {f : NodeId → Except Fault (List NodeId)} {bound : Nat} {lists : List (List NodeId)}
    (hlists : nodes.mapM f = .ok lists) (hbound : ∀ id list, f id = .ok list → list.length ≤ bound) :
    lists.flatten.length ≤ nodes.length * bound := by
  induction forall₂_of_mapM hlists with
  | nil => exact Nat.zero_le _
  | @cons id list nodes lists hlist hrest ih =>
    have hfirst := hbound id list hlist
    have hmore := ih (mapM_of_forall₂ hrest)
    rw [List.flatten_cons, List.length_append, List.length_cons, Nat.succ_mul]
    omega

theorem length_preorderWithin_le (h : p.preorderWithin enter depth id = .ok nodes) :
    nodes.length ≤ Nat.pow (p.links + 1) depth := by
  induction depth generalizing id nodes with
  | zero => cases h
  | succ depth ih =>
    obtain ⟨-, lists, hlists, rfl⟩ := preorderWithin_eq_ok_iff.mp h
    have hbelow := length_flatten_le hlists fun _ _ hwalk => ih hwalk
    have hwidth := Nat.mul_le_mul_right (Nat.pow (p.links + 1) depth) (p.length_entered_le enter id)
    have hpos : 0 < Nat.pow (p.links + 1) depth := Nat.pow_pos (Nat.succ_pos _)
    calc (id :: lists.flatten).length
        ≤ p.links * Nat.pow (p.links + 1) depth + Nat.pow (p.links + 1) depth := by
          rw [List.length_cons]
          omega
      _ = Nat.pow (p.links + 1) (depth + 1) := by
          rw [← Nat.succ_mul, Nat.mul_comm]
          rfl

/-! ## The walk with a stack -/

variable {steps : Nat} {stack : List NodeId} {found : Array NodeId}

/-- One step of `visit`. -/
theorem visit_cons (hid : id < p.size) :
    p.visit wanted enter (steps + 1) (id :: stack) found =
      p.visit wanted enter steps (p.entered enter id ++ stack) (found ++ ([id].filter (p.isAt wanted)).toArray) := by
  obtain ⟨form, hform, hform?⟩ := form_ok hid
  have hentered : p.entered enter id ++ stack = if enter id form then form.children ++ stack else stack := by
    rw [entered, isAt, hform?, Option.any_some, children_eq hform?]
    split <;> rfl
  have hlisted : found ++ ([id].filter (p.isAt wanted)).toArray = if wanted form then found.push id else found := by
    rw [List.filter_singleton, isAt, hform?, Option.any_some]
    split <;> simp [*]
  rw [visit, hform, hentered, hlisted]
  rfl

theorem append_filter {P : NodeId → Bool} (found : Array NodeId) (xs ys : List NodeId) :
    found ++ (xs.filter P).toArray ++ (ys.filter P).toArray = found ++ ((xs ++ ys).filter P).toArray := by
  simp only [Array.append_assoc, List.append_toArray, List.filter_append]

/-- `visit` finds for the nodes on top of the stack what `preorderWithin` lists for them, in as many steps as it lists
nodes, and goes on with the rest of the stack. -/
theorem visit_append {lists : List (List NodeId)} (hlists : nodes.mapM (p.preorderWithin enter depth) = .ok lists)
    (wanted : Form → Bool) (steps : Nat) (stack : List NodeId) (found : Array NodeId) :
    p.visit wanted enter (lists.flatten.length + steps) (nodes ++ stack) found =
      p.visit wanted enter steps stack (found ++ (lists.flatten.filter (p.isAt wanted)).toArray) := by
  induction depth generalizing nodes lists steps stack found with
  | zero =>
    cases nodes with
    | nil =>
      cases hlists
      simp
    | cons id nodes => cases hlists
  | succ depth ih =>
    induction forall₂_of_mapM hlists generalizing found with
    | nil => simp
    | @cons id list nodes lists hlist hrest ihrest =>
      obtain ⟨hid, below, hbelow, rfl⟩ := preorderWithin_eq_ok_iff.mp hlist
      -- the children take the place of the node, and what is found for them comes before the rest
      have hsteps : ((id :: below.flatten) :: lists).flatten.length + steps =
          below.flatten.length + (lists.flatten.length + steps) + 1 := by
        simp only [List.flatten_cons, List.length_append, List.length_cons]
        omega
      rw [hsteps, List.cons_append, visit_cons hid, ih hbelow, ihrest (mapM_of_forall₂ hrest), append_filter,
        append_filter]
      rfl

/-- If `visit` ends, then `preorderWithin` lists the nodes below each node on the stack. -/
theorem exists_preorderWithin_of_visit {result : Array NodeId}
    (h : p.visit wanted enter steps stack found = .ok result) :
    ∃ depth lists, stack.mapM (p.preorderWithin enter depth) = .ok lists ∧
      result = found ++ (lists.flatten.filter (p.isAt wanted)).toArray := by
  induction steps generalizing stack found with
  | zero =>
    cases stack with
    | nil =>
      cases h
      exact ⟨0, [], rfl, by simp⟩
    | cons id stack => cases h
  | succ steps ih =>
    cases stack with
    | nil =>
      cases h
      exact ⟨0, [], rfl, by simp⟩
    | cons id stack =>
      have hid : id < p.size := by
        obtain ⟨form, hform, -⟩ := bind_eq_ok.mp h
        exact lt_size_of_form? (form?_eq_some_of_form hform)
      rw [visit_cons hid] at h
      obtain ⟨depth, lists, hlists, rfl⟩ := ih h
      rw [List.mapM_append] at hlists
      obtain ⟨below, hbelow, hlists⟩ := bind_eq_ok.mp hlists
      obtain ⟨rest, hrest, hlists⟩ := bind_eq_ok.mp hlists
      cases hlists
      have hfirst : p.preorderWithin enter (depth + 1) id = .ok (id :: below.flatten) :=
        preorderWithin_eq_ok_iff.mpr ⟨hid, below, hbelow, rfl⟩
      refine ⟨depth + 1, (id :: below.flatten) :: rest, ?_, ?_⟩
      · rw [List.mapM_cons, hfirst, mapM_preorderWithin_mono (Nat.le_succ depth) hrest]
        rfl
      · rw [append_filter, List.flatten_append]
        rfl

/-! ## Walks from one node -/

theorem mapM_singleton_eq_ok_iff {f : NodeId → Except Fault (List NodeId)} {lists : List (List NodeId)} :
    [id].mapM f = .ok lists ↔ ∃ list, f id = .ok list ∧ lists = [list] := by
  rw [List.mapM_cons, bind_eq_ok]
  exact exists_congr fun list => and_congr_right fun _ => ⟨fun h => (Except.ok.inj h).symm, fun h => h ▸ rfl⟩

/-- If `visit` ends, however many steps it is given, then it finds the wanted ones among the nodes that `preorderWithin`
lists. -/
theorem preorderWithin_of_visit {result : Array NodeId} (h : p.visit wanted enter steps [id] #[] = .ok result) :
    ∃ depth nodes, p.preorderWithin enter depth id = .ok nodes ∧ result = (nodes.filter (p.isAt wanted)).toArray := by
  obtain ⟨depth, lists, hlists, rfl⟩ := exists_preorderWithin_of_visit h
  obtain ⟨nodes, hnodes, rfl⟩ := mapM_singleton_eq_ok_iff.mp hlists
  exact ⟨depth, nodes, hnodes, by simp⟩

/-- If `preorderWithin` ends at some depth, then `visitLimit` steps are enough for `visit`. -/
theorem visit_limit_of_preorderWithin (h : p.preorderWithin enter depth id = .ok nodes) :
    p.visit wanted enter p.visitLimit [id] #[] = .ok (nodes.filter (p.isAt wanted)).toArray := by
  have hsize := preorderWithin_size h
  obtain ⟨spare, hspare⟩ := Nat.le.dest (length_preorderWithin_le hsize)
  have hvisit := visit_append (mapM_singleton_eq_ok_iff.mpr ⟨nodes, hsize, rfl⟩) wanted spare [] #[]
  rw [List.flatten_singleton, hspare, List.append_nil, Array.empty_append] at hvisit
  rw [visitLimit, hvisit]
  cases spare <;> rfl

/-- `visit` needs no more than `visitLimit` steps: it ends within them, with the same nodes, if it ends at all. -/
theorem visit_limit_of_visit {result : Array NodeId} (h : p.visit wanted enter steps [id] #[] = .ok result) :
    p.visit wanted enter p.visitLimit [id] #[] = .ok result := by
  obtain ⟨depth, nodes, hnodes, rfl⟩ := preorderWithin_of_visit h
  exact visit_limit_of_preorderWithin hnodes

/-- `descendants` lists what `visit` finds from a node, in however many steps it ends. -/
theorem descendants_of_visit {result : Array NodeId}
    (h : p.visit (fun _ => true) (fun _ _ => true) steps [id] #[] = .ok result) :
    p.descendants id = .ok result.toList :=
  map_eq_ok.mpr ⟨result, visit_limit_of_visit h, rfl⟩

/-- `descendants` lists what the recursion lists that enters every node. -/
theorem descendants_eq_ok_iff :
    p.descendants id = .ok nodes ↔ ∃ depth, p.preorderWithin (fun _ _ => true) depth id = .ok nodes := by
  have hall {depth : Nat} {nodes : List NodeId} (h : p.preorderWithin (fun _ _ => true) depth id = .ok nodes) :
      nodes.filter (p.isAt fun _ => true) = nodes := by
    rw [List.filter_eq_self]
    intro n hn
    obtain ⟨form, -, hform⟩ := form_ok (lt_size_of_mem_preorderWithin h n hn)
    rw [isAt, hform]
    rfl
  rw [descendants, map_eq_ok]
  constructor
  · rintro ⟨result, hresult, rfl⟩
    obtain ⟨depth, nodes, hnodes, rfl⟩ := preorderWithin_of_visit hresult
    exact ⟨depth, by rw [hnodes, hall hnodes]⟩
  · rintro ⟨depth, hnodes⟩
    exact ⟨_, visit_limit_of_preorderWithin hnodes, hall hnodes⟩

/-- `collect` lists what `visit` finds from a body, in however many steps it ends. -/
theorem collect_of_visit {body : NodeId} {result : Array NodeId}
    (h : p.visit wanted (goesOn body) steps [body] #[] = .ok result) : p.collect wanted body = .ok result.toList :=
  map_eq_ok.mpr ⟨result, visit_limit_of_visit h, rfl⟩

/-- `collect` finds the wanted ones among the nodes that the recursion over a body lists. -/
theorem collect_eq_ok_iff {body : NodeId} :
    p.collect wanted body = .ok nodes ↔
      ∃ depth all, p.preorderWithin (goesOn body) depth body = .ok all ∧ nodes = all.filter (p.isAt wanted) := by
  rw [collect, map_eq_ok]
  constructor
  · rintro ⟨result, hresult, rfl⟩
    obtain ⟨depth, all, hall, rfl⟩ := preorderWithin_of_visit hresult
    exact ⟨depth, all, hall, rfl⟩
  · rintro ⟨depth, all, hall, rfl⟩
    exact ⟨_, visit_limit_of_preorderWithin hall, rfl⟩

end Ascribe.Tree
