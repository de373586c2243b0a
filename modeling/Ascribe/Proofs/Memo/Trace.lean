import Ascribe.Memo

/-!
# What the memo knows about observations

The memo decides with two books whether a result may be kept. An observation sets flags on the open nodes, on
the spot; and it lowers the lowest position observed, which marks save, reset and merge again. This module
compares both books with what happened.

A trace is a list of operations. Read without a memo it tells which computations are open and since when, which
marks are to be asked about, and which computation was observed when (`Memo.Log`). Times are positions in the
trace. A trace is well nested if only the innermost computation is finished, and only after every mark taken
since it was opened has been asked about; and if each question is about the latest mark. Computations that were
opened since a mark may outlive it. If a node is opened again while it is open, an observation hits the
computation further in.

Whether something depends on what was there before a point in time is then a fact about the trace: an
observation after that point hit a computation that was opened before it (`Memo.Log.reachesBack`). Both books
answer exactly this, for the time when a computation was opened and for the time when a mark was taken.

## Key results

- `Memo.Log.Matches.step`: an operation keeps the books in line with the trace
- `Memo.replay_matches`: so the books of every trace are
- `Memo.replay_exact`: a result is kept, and a mark is reported, exactly as the trace says
-/

namespace Ascribe.Memo

/-! ## Observations of one node -/

/-- `observe` of an open node taints the frames further in and notes in `lowest` its position, counted from the
outermost. -/
theorem observe_of_frames {m : Memo} {node : NodeId} {inner outer : List Frame} {frame : Frame}
    (hframes : m.frames = inner ++ frame :: outer) (hinner : ∀ frame ∈ inner, frame.node ≠ node)
    (hnode : frame.node = node) :
    m.observe node =
      { m with
        frames := inner.map ({ · with isTainted := true }) ++ frame :: outer
        lowest := lower m.lowest (some outer.length) } := by
  have hindex : m.frames.findIdx? (·.node == node) = some inner.length := by
    have hmiss : inner.findIdx? (·.node == node) = none := by
      simpa [List.findIdx?_eq_none_iff] using hinner
    rw [hframes, List.findIdx?_append, hmiss, List.findIdx?_cons]
    simp [hnode]
  have hposition : m.frames.length - 1 - inner.length = outer.length := by
    rw [hframes, List.length_append, List.length_cons]
    omega
  unfold observe
  rw [hindex]
  simp only [hposition]
  simp only [hframes, List.take_left, List.drop_left]

theorem observe_of_not_open {m : Memo} {node : NodeId} (h : ∀ frame ∈ m.frames, frame.node ≠ node) :
    m.observe node = m := by
  have hmiss : m.frames.findIdx? (·.node == node) = none := by
    simpa [List.findIdx?_eq_none_iff] using h
  unfold observe
  rw [hmiss]

theorem any_lower (a b : Option Nat) (depth : Nat) :
    (lower a b).any (· < depth) = (a.any (· < depth) || b.any (· < depth)) := by
  cases a with
  | none => cases b <;> rfl
  | some a =>
    cases b with
    | none => simp [lower]
    | some b =>
      simp only [lower, Option.any_some, ← Bool.decide_or, decide_eq_decide]
      omega

/-! ## Traces -/

/-- An operation on the memo. -/
inductive Op where
  | start (node : NodeId)
  | observe (node : NodeId)
  | finish (node : NodeId) (type : Ty)
  | mark
  /-- Ask about the latest mark that has not been asked about. -/
  | ask

/-- A memo and the marks taken from it that have not been asked about, the latest first. -/
structure Play where
  memo : Memo
  marks : List Mark := []

/-- Perform an operation. -/
def Play.step (play : Play) : Op → Play
  | .start node => { play with memo := play.memo.start node }
  | .observe node => { play with memo := play.memo.observe node }
  | .finish node type => { play with memo := play.memo.finish node type }
  | .mark => ⟨play.memo.mark.2, play.memo.mark.1 :: play.marks⟩
  | .ask =>
    match play.marks with
    | mark :: marks => ⟨(play.memo.observedOutside mark).2, marks⟩
    | [] => play

/-- Perform the operations of a trace. -/
def replay (m : Memo) (ops : List Op) : Play :=
  ops.foldl Play.step { memo := m }

/-- A computation that has been opened and not finished. -/
structure Computation where
  node : NodeId
  /-- When it was opened. -/
  opened : Nat
  deriving DecidableEq

/-- An observation of an open computation. -/
structure Hit where
  /-- When the observation was made. -/
  time : Nat
  /-- When the computation was opened that it hit. -/
  opened : Nat
  deriving DecidableEq

/-- What a trace tells, without regard to any memo. -/
structure Log where
  /-- How many operations the trace has. -/
  time : Nat := 0
  /-- The open computations, the innermost first. -/
  opened : List Computation := []
  /-- When the marks were taken that have not been asked about, the latest first. -/
  marks : List Nat := []
  hits : List Hit := []
  deriving DecidableEq

namespace Log

/-- Note that nothing but time has passed. -/
def pass (log : Log) : Log :=
  { log with time := log.time + 1 }

/-- Note that a computation is opened. -/
def start (log : Log) (node : NodeId) : Log :=
  { log.pass with opened := ⟨node, log.time⟩ :: log.opened }

/-- Note that an open computation is observed. -/
def hit (log : Log) (c : Computation) : Log :=
  { log.pass with hits := ⟨log.time, c.opened⟩ :: log.hits }

/-- Note an operation, if the trace stays well nested. An observation of a node that is not open hits
nothing. -/
def step (log : Log) : Op → Option Log
  | .start node => some (log.start node)
  | .observe node =>
    match log.opened.find? (·.node == node) with
    | some c => some (log.hit c)
    | none => some log.pass
  | .finish node _ =>
    match log.opened with
    | c :: outer =>
      if c.node = node ∧ ∀ taken ∈ log.marks, taken < c.opened then some { log.pass with opened := outer }
      else none
    | [] => none
  | .mark => some { log.pass with marks := log.time :: log.marks }
  | .ask =>
    match log.marks with
    | _ :: earlier => some { log.pass with marks := earlier }
    | [] => none

/-- What a well-nested trace tells. -/
def ofTrace (ops : List Op) : Option Log :=
  ops.foldlM step {}

/-- Whether an observation since a point in time hit a computation that was opened before it. -/
def reachesBack (log : Log) (since : Nat) : Bool :=
  log.hits.any fun hit => since < hit.time && hit.opened < since

/-- How many open computations were opened before a point in time. -/
def openBefore (log : Log) (time : Nat) : Nat :=
  log.opened.countP (·.opened < time)

/-! ## The order of events -/

/-- The events of a log are in order. -/
structure Ordered (log : Log) : Prop where
  inner : log.opened.Pairwise fun inner outer => outer.opened < inner.opened
  opened_lt : ∀ c ∈ log.opened, c.opened < log.time
  taken_lt : ∀ taken ∈ log.marks, taken < log.time
  hit_lt : ∀ hit ∈ log.hits, hit.time < log.time

variable {log log' : Log}

theorem Ordered.empty : Ordered {} :=
  ⟨.nil, nofun, nofun, nofun⟩

namespace Ordered

theorem pass (h : log.Ordered) : log.pass.Ordered where
  inner := h.inner
  opened_lt c hc := Nat.lt_succ_of_lt (h.opened_lt c hc)
  taken_lt taken htaken := Nat.lt_succ_of_lt (h.taken_lt taken htaken)
  hit_lt hit hhit := Nat.lt_succ_of_lt (h.hit_lt hit hhit)

theorem start (h : log.Ordered) (node : NodeId) : (log.start node).Ordered :=
  { h.pass with
    inner := List.pairwise_cons.mpr ⟨h.opened_lt, h.inner⟩
    opened_lt := List.forall_mem_cons.mpr ⟨Nat.lt_succ_self _, h.pass.opened_lt⟩ }

theorem hit (h : log.Ordered) (c : Computation) : (log.hit c).Ordered :=
  { h.pass with hit_lt := List.forall_mem_cons.mpr ⟨Nat.lt_succ_self _, h.pass.hit_lt⟩ }

theorem finish (h : log.Ordered) {c : Computation} {outer : List Computation}
    (hopened : log.opened = c :: outer) : Ordered { log.pass with opened := outer } := by
  have hinner := h.inner
  have hlt := h.pass.opened_lt
  simp only [Log.pass, hopened] at hinner hlt
  exact { h.pass with
    inner := (List.pairwise_cons.mp hinner).2
    opened_lt := (List.forall_mem_cons.mp hlt).2 }

theorem mark (h : log.Ordered) : Ordered { log.pass with marks := log.time :: log.marks } :=
  { h.pass with taken_lt := List.forall_mem_cons.mpr ⟨Nat.lt_succ_self _, h.pass.taken_lt⟩ }

theorem ask (h : log.Ordered) {taken : Nat} {earlier : List Nat} (hmarks : log.marks = taken :: earlier) :
    Ordered { log.pass with marks := earlier } := by
  have hlt := h.pass.taken_lt
  simp only [Log.pass, hmarks] at hlt
  exact { h.pass with taken_lt := (List.forall_mem_cons.mp hlt).2 }

/-- No hit `reachesBack` to before the present time of an `Ordered` log. -/
theorem reachesBack_time (h : log.Ordered) : log.reachesBack log.time = false := by
  rw [reachesBack, List.any_eq_false]
  intro hit hhit
  have := h.hit_lt hit hhit
  simp only [Bool.and_eq_true, decide_eq_true_eq, not_and]
  omega

theorem openBefore_time (h : log.Ordered) : log.openBefore log.time = log.opened.length := by
  rw [openBefore, List.countP_eq_length]
  intro c hc
  simpa using h.opened_lt c hc

/-- A computation was opened before `time` exactly if it is among the `openBefore time` outermost ones. -/
theorem opened_lt_iff (h : log.Ordered) {inner outer : List Computation} {c : Computation}
    (hopened : log.opened = inner ++ c :: outer) (time : Nat) :
    c.opened < time ↔ outer.length < log.openBefore time := by
  have hordered := h.inner
  rw [hopened, List.pairwise_append, List.pairwise_cons] at hordered
  obtain ⟨-, ⟨houter, -⟩, hinner⟩ := hordered
  rw [openBefore, hopened, List.countP_append, List.countP_cons]
  constructor
  · intro hc
    -- the computations further out are older still
    have hall : outer.countP (·.opened < time) = outer.length := by
      rw [List.countP_eq_length]
      intro d hd
      have := houter d hd
      simp only [decide_eq_true_eq]
      omega
    simp only [hall, hc, decide_true, if_true]
    omega
  · intro hlt
    refine Classical.byContradiction fun hc => ?_
    -- the computations further in are younger still
    have hnone : inner.countP (·.opened < time) = 0 := by
      rw [List.countP_eq_zero]
      intro d hd
      have := hinner d hd c List.mem_cons_self
      simp only [decide_eq_true_eq]
      omega
    have hle : outer.countP (·.opened < time) ≤ outer.length := List.countP_le_length
    simp only [hnone, hc, decide_false, Bool.false_eq_true, if_false] at hlt
    omega

end Ordered

/-! ## The two books -/

/-- The frame of an open computation: it is tainted if something since reached back to before it. -/
def frameOf (log : Log) (c : Computation) : Frame :=
  ⟨c.node, log.reachesBack c.opened⟩

/-- The lowest position is below the depth of the latest mark exactly if something since reached back to before
the mark. The same holds of earlier marks, once the later ones have been asked about. -/
def Books (log : Log) : Option Nat → List Mark → List Nat → Prop
  | _, [], [] => True
  | lowest, mark :: marks, taken :: earlier =>
    mark.depth = log.openBefore taken ∧ lowest.any (· < mark.depth) = log.reachesBack taken ∧
      log.Books (lower lowest mark.saved) marks earlier
  | _, _, _ => False

/-- The books of a memo are in line with what a trace tells. -/
structure Matches (log : Log) (play : Play) : Prop where
  ordered : log.Ordered
  frames : play.memo.frames = log.opened.map log.frameOf
  books : log.Books play.memo.lowest play.marks log.marks

/-- `Books` stays true if `lowest` is lowered for just those marks that the log newly `reachesBack` before. -/
theorem Books.extend {lowest lowest' : Option Nat} {marks : List Mark} {takens : List Nat}
    (reached : Nat → Bool) (h : log.Books lowest marks takens)
    (hlowest : ∀ depth, lowest'.any (· < depth) = (lowest.any (· < depth) || reached depth))
    (hopen : ∀ taken ∈ takens, log'.openBefore taken = log.openBefore taken)
    (hback : ∀ taken ∈ takens,
      log'.reachesBack taken = (log.reachesBack taken || reached (log.openBefore taken))) :
    log'.Books lowest' marks takens := by
  induction takens generalizing lowest lowest' marks with
  | nil =>
    cases marks with
    | nil => trivial
    | cons mark marks => exact h
  | cons taken earlier ih =>
    cases marks with
    | nil => exact h
    | cons mark marks =>
      obtain ⟨hdepth, hany, hrest⟩ := h
      rw [List.forall_mem_cons] at hopen hback
      refine ⟨hdepth.trans hopen.1.symm, ?_, ih hrest (fun depth => ?_) hopen.2 hback.2⟩
      · rw [hlowest, hany, hback.1, hdepth]
      · -- what the mark had saved is put together with both in the same way
        rw [any_lower, any_lower, hlowest, Bool.or_right_comm]

/-- `Books` stays true while there are no new `hits`. -/
theorem Books.keep {lowest : Option Nat} {marks : List Mark} {takens : List Nat}
    (h : log.Books lowest marks takens)
    (hopen : ∀ taken ∈ takens, log'.openBefore taken = log.openBefore taken) (hhits : log'.hits = log.hits) :
    log'.Books lowest marks takens := by
  refine h.extend (fun _ => false) (by simp) hopen fun taken _ => ?_
  rw [reachesBack, reachesBack, hhits, Bool.or_false]

namespace Matches

variable {play : Play}

theorem empty {m : Memo} (hidle : m.frames = []) : Matches {} { memo := m } :=
  ⟨.empty, hidle, trivial⟩

/-- `frames` stay those of `frameOf` while there are no new `hits`. -/
theorem frames_eq (h : log.Matches play) (hopened : log'.opened = log.opened) (hhits : log'.hits = log.hits) :
    play.memo.frames = log'.opened.map log'.frameOf := by
  have hframe : log'.frameOf = log.frameOf := by
    funext c
    rw [frameOf, frameOf, reachesBack, reachesBack, hhits]
  rw [h.frames, hopened, hframe]

theorem start (h : log.Matches play) (node : NodeId) :
    (log.start node).Matches { play with memo := play.memo.start node } := by
  refine ⟨h.ordered.start node, ?_, h.books.keep (fun taken htaken => ?_) rfl⟩
  · -- nothing has been observed since the new computation was opened
    have hnew : log.reachesBack log.time = false := h.ordered.reachesBack_time
    show ⟨node, false⟩ :: play.memo.frames = ⟨node, log.reachesBack log.time⟩ :: log.opened.map log.frameOf
    rw [hnew, h.frames]
  · have hlater := h.ordered.taken_lt taken htaken
    simp only [openBefore, Log.start, List.countP_cons, decide_eq_true_eq]
    rw [if_neg (by omega), Nat.add_zero]

/-- `Matches` survives an observation: `observe` taints the frames of the computations opened after the one that is hit,
and those alone. -/
theorem hit (h : log.Matches play) {node : NodeId} {c : Computation}
    (hfind : log.opened.find? (·.node == node) = some c) :
    (log.hit c).Matches { play with memo := play.memo.observe node } := by
  obtain ⟨hnode, inner, outer, hopened, hinner⟩ := List.find?_eq_some_iff_append.mp hfind
  have hback (since : Nat) (hsince : since < log.time) :
      (log.hit c).reachesBack since = (log.reachesBack since || decide (c.opened < since)) := by
    simp only [reachesBack, Log.hit, List.any_cons, hsince, decide_true, Bool.true_and]
    exact Bool.or_comm _ _
  have hframes : play.memo.frames = inner.map log.frameOf ++ log.frameOf c :: outer.map log.frameOf := by
    rw [h.frames, hopened, List.map_append, List.map_cons]
  have hmiss : ∀ frame ∈ inner.map log.frameOf, frame.node ≠ node := by
    intro frame hframe
    obtain ⟨d, hd, rfl⟩ := List.mem_map.mp hframe
    simpa [frameOf] using hinner d hd
  rw [observe_of_frames hframes hmiss (by simpa [frameOf] using hnode), List.length_map]
  have hcut := h.ordered.inner
  rw [hopened, List.pairwise_append, List.pairwise_cons] at hcut
  obtain ⟨-, ⟨holder, -⟩, hyounger⟩ := hcut
  have htime : ∀ d ∈ inner ++ c :: outer, d.opened < log.time := hopened ▸ h.ordered.opened_lt
  refine ⟨h.ordered.hit c, ?_, ?_⟩
  · show (inner.map log.frameOf).map _ ++ (c :: outer).map log.frameOf = log.opened.map (log.hit c).frameOf
    rw [hopened, List.map_append, List.map_map]
    congr 1
    · -- further in: opened after the computation that is observed
      refine List.map_congr_left fun d hd => ?_
      have hd' := hyounger d hd c List.mem_cons_self
      simp only [Function.comp_apply, frameOf, hback d.opened (htime d (List.mem_append_left _ hd)), hd',
        decide_true, Bool.or_true]
    · -- the computation itself and those further out
      refine List.map_congr_left fun d hd => ?_
      have hd' : ¬ c.opened < d.opened := by
        rcases List.mem_cons.mp hd with rfl | hd
        · exact Nat.lt_irrefl _
        · exact Nat.lt_asymm (holder d hd)
      simp only [frameOf, hback d.opened (htime d (List.mem_append_right _ hd)), hd', decide_false,
        Bool.or_false]
  · -- the position of the computation is below the depth of just the marks that were taken after it
    refine h.books.extend (fun depth => decide (outer.length < depth)) (fun depth => ?_) (fun _ _ => rfl)
      fun taken htaken => ?_
    · rw [any_lower, Option.any_some]
    · rw [hback taken (h.ordered.taken_lt taken htaken)]
      congr 1
      exact decide_eq_decide.mpr (h.ordered.opened_lt_iff hopened taken)

theorem miss (h : log.Matches play) {node : NodeId} (hfind : log.opened.find? (·.node == node) = none) :
    log.pass.Matches { play with memo := play.memo.observe node } := by
  have hmiss : ∀ frame ∈ play.memo.frames, frame.node ≠ node := by
    rw [h.frames]
    intro frame hframe
    obtain ⟨d, hd, rfl⟩ := List.mem_map.mp hframe
    simpa [frameOf] using List.find?_eq_none.mp hfind d hd
  rw [observe_of_not_open hmiss]
  exact ⟨h.ordered.pass, h.frames_eq rfl rfl, h.books.keep (fun _ _ => rfl) rfl⟩

/-- `Matches` survives `finish`, which closes the innermost frame and leaves `lowest` alone. -/
theorem finish (h : log.Matches play) {c : Computation} {outer : List Computation}
    (hopened : log.opened = c :: outer) (hyounger : ∀ taken ∈ log.marks, taken < c.opened) (type : Ty) :
    Matches { log.pass with opened := outer } { play with memo := play.memo.finish c.node type } := by
  have hframes : play.memo.frames = log.frameOf c :: outer.map log.frameOf := by
    rw [h.frames, hopened, List.map_cons]
  have hfinish : (play.memo.finish c.node type).frames = outer.map log.frameOf ∧
      (play.memo.finish c.node type).lowest = play.memo.lowest := by
    simp only [Memo.finish, hframes]
    split <;> exact ⟨rfl, rfl⟩
  refine ⟨h.ordered.finish hopened, hfinish.1, ?_⟩
  show Books _ (play.memo.finish c.node type).lowest play.marks log.marks
  rw [hfinish.2]
  refine h.books.keep (fun taken htaken => ?_) rfl
  have hlater := hyounger taken htaken
  simp only [openBefore, hopened, List.countP_cons, decide_eq_true_eq]
  rw [if_neg (by omega), Nat.add_zero]

theorem mark (h : log.Matches play) :
    Matches { log.pass with marks := log.time :: log.marks }
      ⟨play.memo.mark.2, play.memo.mark.1 :: play.marks⟩ := by
  refine ⟨h.ordered.mark, h.frames_eq rfl rfl, ?_, ?_, ?_⟩
  · show play.memo.frames.length = log.openBefore log.time
    rw [h.ordered.openBefore_time, h.frames, List.length_map]
  · exact h.ordered.reachesBack_time.symm
  · have hlower : lower none play.memo.lowest = play.memo.lowest := by cases play.memo.lowest <;> rfl
    show Books _ (lower none play.memo.lowest) play.marks log.marks
    rw [hlower]
    exact h.books.keep (fun _ _ => rfl) rfl

/-- Under `Matches` the latest mark is in hand, and `observedOutside` answers for it as `reachesBack` does. -/
theorem marks_eq (h : log.Matches play) {taken : Nat} {earlier : List Nat}
    (hmarks : log.marks = taken :: earlier) :
    ∃ mark marks, play.marks = mark :: marks ∧
      (play.memo.observedOutside mark).1 = log.reachesBack taken ∧
      log.Books (play.memo.observedOutside mark).2.lowest marks earlier := by
  have hbooks := h.books
  rw [hmarks] at hbooks
  cases hplay : play.marks with
  | nil => rw [hplay] at hbooks; cases hbooks
  | cons mark marks =>
    rw [hplay] at hbooks
    exact ⟨mark, marks, rfl, hbooks.2⟩

/-- `Matches` survives every `Op`. -/
theorem step (h : log.Matches play) {op : Op} (hstep : log.step op = some log') :
    log'.Matches (play.step op) := by
  cases op with
  | start node =>
    obtain rfl := Option.some.inj hstep
    exact h.start node
  | observe node =>
    simp only [Log.step] at hstep
    split at hstep
    · next c hfind =>
      obtain rfl := Option.some.inj hstep
      exact h.hit hfind
    · next hfind =>
      obtain rfl := Option.some.inj hstep
      exact h.miss hfind
  | finish node type =>
    simp only [Log.step] at hstep
    split at hstep
    · next c outer hopened =>
      split at hstep
      · next hinnermost =>
        obtain rfl := Option.some.inj hstep
        obtain ⟨rfl, hyounger⟩ := hinnermost
        exact h.finish hopened hyounger type
      · cases hstep
    · cases hstep
  | mark =>
    obtain rfl := Option.some.inj hstep
    exact h.mark
  | ask =>
    simp only [Log.step] at hstep
    split at hstep
    · next taken earlier hmarks =>
      obtain rfl := Option.some.inj hstep
      obtain ⟨mark, marks, hplay, -, hbooks⟩ := h.marks_eq hmarks
      simp only [Play.step, hplay]
      exact ⟨h.ordered.ask hmarks, h.frames_eq rfl rfl, hbooks.keep (fun _ _ => rfl) rfl⟩
    · cases hstep

end Matches

end Log

/-- `Matches` holds after `replay` of a trace on a memo without open nodes. -/
theorem replay_matches {m : Memo} (hidle : m.frames = []) {ops : List Op} {log : Log}
    (htrace : Log.ofTrace ops = some log) : log.Matches (replay m ops) := by
  have run (ops : List Op) {start : Log} {play : Play} (h : start.Matches play)
      (htrace : ops.foldlM Log.step start = some log) : log.Matches (ops.foldl Play.step play) := by
    induction ops generalizing start play with
    | nil =>
      obtain rfl := Option.some.inj htrace
      exact h
    | cons op ops ih =>
      rw [List.foldlM_cons] at htrace
      obtain ⟨next, hstep, hrest⟩ := Option.bind_eq_some_iff.mp htrace
      exact ih (h.step hstep) hrest
  exact run ops (.empty hidle) htrace

/-- The books of `Memo` are exact. After `replay` of any well-nested trace, `finish` keeps the innermost computation
unless an observation since it was opened hit a computation opened before it; and `observedOutside` reports the latest
mark exactly if an observation since it was taken hit a computation opened before it. -/
theorem replay_exact {m : Memo} (hidle : m.frames = []) {ops : List Op} {log : Log}
    (htrace : Log.ofTrace ops = some log) :
    (∀ c outer type, log.opened = c :: outer →
      (((replay m ops).memo.finish c.node type).get? c.node = some (.done type) ↔
        ¬ ∃ hit ∈ log.hits, c.opened < hit.time ∧ hit.opened < c.opened)) ∧
    (∀ taken earlier, log.marks = taken :: earlier →
      ∃ mark marks, (replay m ops).marks = mark :: marks ∧
        (((replay m ops).memo.observedOutside mark).1 = true ↔
          ∃ hit ∈ log.hits, taken < hit.time ∧ hit.opened < taken)) := by
  have hmatches := replay_matches hidle htrace
  have hback (since : Nat) : log.reachesBack since = true ↔
      ∃ hit ∈ log.hits, since < hit.time ∧ hit.opened < since := by
    simp only [Log.reachesBack, List.any_eq_true, Bool.and_eq_true, decide_eq_true_eq]
  constructor
  · intro c outer type hopened
    have hframes : (replay m ops).memo.frames = log.frameOf c :: outer.map log.frameOf := by
      rw [hmatches.frames, hopened, List.map_cons]
    rw [← hback]
    simp only [Memo.finish, hframes, Log.frameOf]
    cases log.reachesBack c.opened <;> simp [Memo.get?]
  · intro taken earlier hmarks
    obtain ⟨mark, marks, hplay, hasked, -⟩ := hmatches.marks_eq hmarks
    exact ⟨mark, marks, hplay, by rw [hasked, hback]⟩

/-- Node 1 is observed from within node 2, which is thrown away for it, and within two marks. -/
def nested : List Op :=
  [.start 0, .mark, .start 1, .mark, .start 2, .observe 1, .finish 2 .void, .ask]

/-- After `nested`, node 1 itself is kept all the same, and the mark that was taken before it was opened is not
reported. -/
theorem nested_exact :
    Log.ofTrace nested = some ⟨8, [⟨1, 2⟩, ⟨0, 0⟩], [1], [⟨5, 2⟩]⟩ ∧
      ((replay {} nested).memo.finish 1 .void).get? 1 = some (.done .void) ∧
      ∃ mark marks, (replay {} nested).marks = mark :: marks ∧
        ¬ ((replay {} nested).memo.observedOutside mark).1 = true := by
  have htrace : Log.ofTrace nested = some ⟨8, [⟨1, 2⟩, ⟨0, 0⟩], [1], [⟨5, 2⟩]⟩ := rfl
  obtain ⟨hkept, hasked⟩ := replay_exact (m := {}) rfl htrace
  refine ⟨htrace, (hkept ⟨1, 2⟩ _ .void rfl).mpr (by simp), ?_⟩
  obtain ⟨mark, marks, hmarks, hreported⟩ := hasked 1 [] rfl
  exact ⟨mark, marks, hmarks, by rw [hreported]; simp⟩

end Ascribe.Memo
