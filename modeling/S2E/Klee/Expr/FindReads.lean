import S2E.Klee.Expr.Syntax

/-!
# `findReads`: the reads under an expression

* `Search`, `search`, `findReads` : the worklist of `ExprUtil.cpp`. Constants are never pushed, nothing is pushed twice,
  and the updates of a head are gone through once. A head is known by its contents here and by its address there; where
  only the addresses differ, everything below has been visited;
* `findReads_closed` : the loop ends with a set of expressions that contains the first one and, with each of its
  members, all operands of the member, and that has given out every read in it;
* `findSymbolicObjects` : the symbolic arrays that a list of expressions reads. Those of `boundedAssignments` that agree
  on them give the expressions the same values (`eval_eq_of_agree`).
-/

namespace S2E.Klee
open List

/-- `ReadExpr`. -/
structure Read where
  root : Array
  head : Updates
  index : Expr
deriving DecidableEq

/-- The indices and values of an update list, the most recent update first. -/
def Updates.exprs : Updates → List Expr
  | .nil => []
  | .cons index value next => index :: value :: next.exprs

/-- The state of the loop. -/
structure Search where
  stack : List Expr
  visited : List Expr
  updates : List Updates
  results : List Read

namespace Search

def push (s : Search) (e : Expr) : Search :=
  if e.isConstant ∨ e ∈ s.visited then s else { s with stack := e :: s.stack, visited := e :: s.visited }

def pushAll (s : Search) (es : List Expr) : Search := es.foldl push s

/-- The updates of a read, unless the head has been seen. -/
def pushUpdates (s : Search) (head : Updates) : Search :=
  if head ∈ s.updates then s else pushAll { s with updates := head :: s.updates } head.exprs

/-- The body of the loop, for the expression taken from the stack. -/
def visit (visitUpdates : Bool) (s : Search) : Expr → Search
  | .read root head index =>
    let s := push { s with results := s.results ++ [⟨root, head, index⟩] } index
    if visitUpdates then s.pushUpdates head else s
  | e => s.pushAll e.kids

/-- The loop, for at most `fuel` expressions. -/
def search (visitUpdates : Bool) : Nat → Search → Search
  | 0, s => s
  | fuel + 1, s =>
    match s.stack with
    | [] => s
    | top :: rest => search visitUpdates fuel (visit visitUpdates { s with stack := rest } top)

end Search

/-- The weight of the expression is more than enough fuel. -/
def findReads (e : Expr) (visitUpdates : Bool) : List Read :=
  (Search.search visitUpdates e.weight (Search.push ⟨[], [], [], []⟩ e)).results

/-! ## What the loop leaves -/

/-- What `findReads` pushes for an expression. -/
def Expr.operands : Expr → List Expr
  | .read _ head index => index :: head.exprs
  | e => e.kids

namespace Search

variable {s : Search} {e x : Expr}

/-- Nothing has to be done for the expression any more, or it is among the visited ones. -/
def Seen (s : Search) (e : Expr) : Prop := e.isConstant = true ∨ e ∈ s.visited

/-- All operands of the expression have been seen, and the expression is in the results if it is a read. -/
structure Done (s : Search) (e : Expr) : Prop where
  operands : ∀ x ∈ e.operands, s.Seen x
  results : ∀ root head index, e = .read root head index → ⟨root, head, index⟩ ∈ s.results

structure Inv (s : Search) : Prop where
  visited : ∀ e ∈ s.visited, e ∈ s.stack ∨ s.Done e
  updates : ∀ u ∈ s.updates, ∀ x ∈ u.exprs, s.Seen x

/-- The later state has seen and given out all that the earlier one has; what it has in addition is on its stack. -/
structure Grows (s s' : Search) : Prop where
  visited : ∀ e ∈ s.visited, e ∈ s'.visited
  results : ∀ r ∈ s.results, r ∈ s'.results
  stack : ∀ e ∈ s.stack, e ∈ s'.stack
  fresh : ∀ e ∈ s'.visited, e ∈ s.visited ∨ e ∈ s'.stack

theorem Grows.refl (s : Search) : Grows s s := ⟨fun _ => id, fun _ => id, fun _ => id, fun _ => .inl⟩

theorem Grows.trans {s₁ s₂ s₃ : Search} (h₁ : Grows s₁ s₂) (h₂ : Grows s₂ s₃) : Grows s₁ s₃ where
  visited e he := h₂.visited e (h₁.visited e he)
  results r hr := h₂.results r (h₁.results r hr)
  stack e he := h₂.stack e (h₁.stack e he)
  fresh e he := by
    rcases h₂.fresh e he with h | h
    · exact (h₁.fresh e h).imp_right (h₂.stack e)
    · exact .inr h

theorem Grows.seen {s' : Search} (h : Grows s s') (hs : s.Seen e) : s'.Seen e := hs.imp_right (h.visited e)

theorem Grows.done {s' : Search} (h : Grows s s') (hd : s.Done e) : s'.Done e where
  operands x hx := h.seen (hd.operands x hx)
  results root head index he := h.results _ (hd.results root head index he)

/-- The weight of the stack. It bounds the number of expressions that are still taken from it. -/
def stackWeight (s : Search) : Nat := (s.stack.map Expr.weight).sum

/-! ### One push -/

theorem push_grows : Grows s (s.push e) := by
  unfold push
  split
  · exact .refl s
  · refine ⟨fun x hx => mem_cons_of_mem e hx, fun _ => id, fun x hx => mem_cons_of_mem e hx, fun x hx => ?_⟩
    rcases mem_cons.1 hx with rfl | hx
    · exact .inr mem_cons_self
    · exact .inl hx

theorem push_seen : (s.push e).Seen e := by
  unfold push
  split
  · assumption
  · exact .inr mem_cons_self

theorem push_updates : (s.push e).updates = s.updates := by
  unfold push
  split <;> rfl

theorem push_weight : (s.push e).stackWeight ≤ s.stackWeight + e.weight := by
  unfold push
  split
  · omega
  · simp only [stackWeight, map_cons, sum_cons]
    omega

/-! ### Several pushes -/

theorem pushAll_cons {es : List Expr} : s.pushAll (e :: es) = (s.push e).pushAll es := rfl

theorem pushAll_grows (es : List Expr) : ∀ s : Search, Grows s (s.pushAll es) := by
  induction es with
  | nil => exact fun s => .refl s
  | cons e es ih => exact fun s => push_grows.trans (ih (s.push e))

theorem pushAll_seen (es : List Expr) : ∀ s : Search, ∀ x ∈ es, (s.pushAll es).Seen x := by
  induction es with
  | nil =>
    intro s x hx
    cases hx
  | cons e es ih =>
    intro s x hx
    rw [pushAll_cons]
    rcases mem_cons.1 hx with rfl | hx
    · exact (pushAll_grows es _).seen push_seen
    · exact ih (s.push e) x hx

theorem pushAll_updates (es : List Expr) : ∀ s : Search, (s.pushAll es).updates = s.updates := by
  induction es with
  | nil => exact fun s => rfl
  | cons e es ih => exact fun s => (ih (s.push e)).trans push_updates

theorem pushAll_weight (es : List Expr) :
    ∀ s : Search, (s.pushAll es).stackWeight ≤ s.stackWeight + (es.map Expr.weight).sum := by
  induction es with
  | nil => exact fun s => le_rfl
  | cons e es ih =>
    intro s
    have h₁ := ih (s.push e)
    have h₂ : (s.push e).stackWeight ≤ s.stackWeight + e.weight := push_weight
    rw [pushAll_cons, map_cons, sum_cons]
    omega

theorem weight_exprs : ∀ u : Updates, (u.exprs.map Expr.weight).sum = u.weight
  | .nil => rfl
  | .cons index value next => by
    simp only [Updates.exprs, map_cons, sum_cons, weight_exprs next, Updates.weight]
    omega

/-! ### One step of the loop -/

/-- What taking `top` from the stack does: it is done, and the stack gets lighter. -/
structure Step (s : Search) (top : Expr) (s' : Search) : Prop where
  grows : Grows s s'
  done : s'.Done top
  updates : ∀ u ∈ s'.updates, ∀ x ∈ u.exprs, s'.Seen x
  weight : s'.stackWeight < s.stackWeight + top.weight

theorem pushUpdates_spec (head : Updates) (h : ∀ u ∈ s.updates, ∀ x ∈ u.exprs, s.Seen x) :
    Grows s (s.pushUpdates head) ∧ (∀ x ∈ head.exprs, (s.pushUpdates head).Seen x) ∧
      (∀ u ∈ (s.pushUpdates head).updates, ∀ x ∈ u.exprs, (s.pushUpdates head).Seen x) ∧
      (s.pushUpdates head).stackWeight ≤ s.stackWeight + head.weight := by
  unfold pushUpdates
  split
  · rename_i hmem
    exact ⟨.refl s, h head hmem, h, by omega⟩
  · have hg : Grows s { s with updates := head :: s.updates } := ⟨fun _ => id, fun _ => id, fun _ => id, fun _ => .inl⟩
    have hgrow := hg.trans (pushAll_grows head.exprs _)
    have hseen := pushAll_seen head.exprs { s with updates := head :: s.updates }
    refine ⟨hgrow, hseen, fun u hu x hx => ?_, ?_⟩
    · rw [pushAll_updates] at hu
      rcases mem_cons.1 hu with rfl | hu
      · exact hseen x hx
      · exact hgrow.seen (h u hu x hx)
    · rw [← weight_exprs head]
      exact pushAll_weight _ _

theorem visit_kids (h : ∀ u ∈ s.updates, ∀ x ∈ u.exprs, s.Seen x) (ho : e.operands = e.kids)
    (hr : ∀ root head index, e ≠ .read root head index) : Step s e (s.pushAll e.kids) where
  grows := pushAll_grows e.kids s
  done := by
    refine ⟨?_, fun root head index he => absurd he (hr root head index)⟩
    rw [ho]
    exact pushAll_seen e.kids s
  updates u hu x hx := by
    rw [pushAll_updates] at hu
    exact (pushAll_grows e.kids s).seen (h u hu x hx)
  weight := lt_of_le_of_lt (pushAll_weight e.kids s) (Nat.add_lt_add_left e.weight_kids_lt _)

theorem visit_step (h : ∀ u ∈ s.updates, ∀ x ∈ u.exprs, s.Seen x) (top : Expr) : Step s top (s.visit true top) := by
  cases top with
  | read root head index =>
    have hg : Grows s { s with results := s.results ++ [⟨root, head, index⟩] } :=
      ⟨fun _ => id, fun r hr => mem_append_left _ hr, fun _ => id, fun _ => .inl⟩
    have hgrow := hg.trans (push_grows (e := index))
    have hup : ∀ u ∈ (push { s with results := s.results ++ [⟨root, head, index⟩] } index).updates, ∀ x ∈ u.exprs,
        (push { s with results := s.results ++ [⟨root, head, index⟩] } index).Seen x := by
      intro u hu x hx
      rw [push_updates] at hu
      exact hgrow.seen (h u hu x hx)
    obtain ⟨hg₂, hseen, hup₂, hweight⟩ := pushUpdates_spec head hup
    refine ⟨hgrow.trans hg₂, ⟨fun x hx => ?_, fun r h' i he => ?_⟩, hup₂, ?_⟩
    · rcases mem_cons.1 hx with rfl | hx
      · exact hg₂.seen push_seen
      · exact hseen x hx
    · cases he
      exact hg₂.results _ (push_grows.results _ (mem_append_right _ mem_cons_self))
    · have hpush : (push { s with results := s.results ++ [⟨root, head, index⟩] } index).stackWeight ≤
          s.stackWeight + index.weight := push_weight
      have hpos := index.weight_pos
      refine lt_of_le_of_lt hweight ?_
      rw [Expr.weight]
      omega
  | _ => exact visit_kids h rfl (by simp)

/-! ### The loop -/

/-- Every step keeps the invariant, and the weight of the stack bounds the number of steps. -/
theorem search_inv (fuel : Nat) : ∀ s : Search, s.Inv → s.stackWeight ≤ fuel →
    (search true fuel s).Inv ∧ (search true fuel s).stack = [] ∧ ∀ e ∈ s.visited, e ∈ (search true fuel s).visited := by
  induction fuel with
  | zero =>
    intro s h hw
    refine ⟨h, ?_, fun _ => id⟩
    cases hs : s.stack with
    | nil => exact hs
    | cons e es =>
      have hpos := e.weight_pos
      rw [stackWeight, hs, map_cons, sum_cons] at hw
      omega
  | succ fuel ih =>
    intro s h hw
    unfold search
    cases hs : s.stack with
    | nil => exact ⟨h, hs, fun _ => id⟩
    | cons top rest =>
      have hstep : Step { s with stack := rest } top (visit true { s with stack := rest } top) :=
        visit_step (s := { s with stack := rest }) h.updates top
      have hinv : (visit true { s with stack := rest } top).Inv := by
        refine ⟨fun e he => ?_, hstep.updates⟩
        rcases hstep.grows.fresh e he with hold | hnew
        · rcases h.visited e hold with hmem | hdone
          · rw [hs] at hmem
            rcases mem_cons.1 hmem with rfl | hmem
            · exact .inr hstep.done
            · exact .inl (hstep.grows.stack e hmem)
          · exact .inr (hstep.grows.done ⟨hdone.operands, hdone.results⟩)
        · exact .inl hnew
      have hlight : (visit true { s with stack := rest } top).stackWeight ≤ fuel := by
        have := hstep.weight
        rw [stackWeight, hs, map_cons, sum_cons] at hw
        simp only [stackWeight] at this hw ⊢
        omega
      obtain ⟨h₁, h₂, h₃⟩ := ih _ hinv hlight
      exact ⟨h₁, h₂, fun e he => h₃ e (hstep.grows.visited e he)⟩

end Search

/-- With each member that is not a constant, the set contains the operands that are not constants. -/
def Closed (V : Set Expr) : Prop := ∀ v ∈ V, ∀ x ∈ v.operands, x.isConstant = true ∨ x ∈ V

theorem Closed.operand {V : Set Expr} (h : Closed V) {e x : Expr} (he : e.isConstant = true ∨ e ∈ V)
    (hn : e.isConstant = false) (hx : x ∈ e.operands) : x.isConstant = true ∨ x ∈ V := by
  rcases he with hc | hV
  · rw [hn] at hc
    cases hc
  · exact h e hV x hx

/-- The set of expressions that the loop has gone through: with each of them it has seen all operands of it. -/
theorem findReads_closed (e : Expr) : ∃ V : Set Expr, (e.isConstant = true ∨ e ∈ V) ∧ Closed V ∧
    ∀ root head index, Expr.read root head index ∈ V → ⟨root, head, index⟩ ∈ findReads e true := by
  let start := Search.push ⟨[], [], [], []⟩ e
  have hgrow : Search.Grows ⟨[], [], [], []⟩ start := Search.push_grows
  have hinv : start.Inv := by
    refine ⟨fun x hx => ?_, fun u hu => ?_⟩
    · rcases hgrow.fresh x hx with hold | hnew
      · cases hold
      · exact .inl hnew
    · rw [Search.push_updates] at hu
      cases hu
  have hweight : start.stackWeight ≤ e.weight :=
    Search.push_weight.trans (by simp [Search.stackWeight])
  obtain ⟨hfinal, hempty, hvisited⟩ := Search.search_inv e.weight start hinv hweight
  have hdone : ∀ v ∈ (Search.search true e.weight start).visited, (Search.search true e.weight start).Done v := by
    intro v hv
    rcases hfinal.visited v hv with hstack | hdone
    · grind
    · exact hdone
  refine ⟨{v | v ∈ (Search.search true e.weight start).visited}, ?_, fun v hv => (hdone v hv).operands, ?_⟩
  · exact (Search.push_seen (e := e)).imp_right (hvisited e)
  · exact fun root head index hv => (hdone _ hv).results root head index rfl

/-! ## Values -/

/-- The two assignments agree on what the reads of the set look up under the first one. -/
def AgreeOnReads (V : Set Expr) (σ τ : Assignment) : Prop := ∀ root head index, Expr.read root head index ∈ V →
  σ.initial root (index.eval σ 32).toNat = τ.initial root (index.eval σ 32).toNat

mutual

/-- The value of an expression is decided by what the reads of a closed set look up. -/
theorem Expr.eval_congr {σ τ : Assignment} {V : Set Expr} (hV : Closed V) (hread : AgreeOnReads V σ τ) :
    ∀ e : Expr, e.isConstant = true ∨ e ∈ V → ∀ w, e.eval σ w = e.eval τ w
  | .constant c, _, w => by simp only [Expr.eval]
  | .notOptimized e, h, w | .not e, h, w | .extract e _ _, h, w | .zext e _, h, w | .sext e _, h, w => by
    have he := Expr.eval_congr hV hread e (hV.operand h rfl mem_cons_self)
    simp only [Expr.eval, he]
  | .select c t f, h, w => by
    have hc := Expr.eval_congr hV hread c (hV.operand h rfl (by simp [Expr.operands, Expr.kids]))
    have ht := Expr.eval_congr hV hread t (hV.operand h rfl (by simp [Expr.operands, Expr.kids]))
    have hf := Expr.eval_congr hV hread f (hV.operand h rfl (by simp [Expr.operands, Expr.kids]))
    simp only [Expr.eval, hc, ht, hf]
  | .concat l r, h, w | .bin _ l r, h, w | .cmp _ l r, h, w => by
    have hl := Expr.eval_congr hV hread l (hV.operand h rfl (by simp [Expr.operands, Expr.kids]))
    have hr := Expr.eval_congr hV hread r (hV.operand h rfl (by simp [Expr.operands, Expr.kids]))
    simp only [Expr.eval, hl, hr]
  | .read root head index, h, w => by
    have hi := Expr.eval_congr hV hread index (hV.operand h rfl mem_cons_self)
    have hinit := hread root head index (h.resolve_left (by simp [Expr.isConstant]))
    have hh := Updates.eval_congr hV hread head (fun x hx => hV.operand h rfl (mem_cons_of_mem index hx)) root
      (index.eval σ 32) hinit
    rw [Expr.eval, Expr.eval, hh, hi]

theorem Updates.eval_congr {σ τ : Assignment} {V : Set Expr} (hV : Closed V) (hread : AgreeOnReads V σ τ) :
    ∀ u : Updates, (∀ x ∈ u.exprs, x.isConstant = true ∨ x ∈ V) →
    ∀ (root : Array) (i : BitVec 32), σ.initial root i.toNat = τ.initial root i.toNat →
      u.eval σ root i = u.eval τ root i
  | .nil, _, root, i, hinit => hinit
  | .cons index value next, h, root, i, hinit => by
    have hi := Expr.eval_congr hV hread index (h index mem_cons_self)
    have hv := Expr.eval_congr hV hread value (h value (by simp [Updates.exprs]))
    have hn := Updates.eval_congr hV hread next (fun x hx => h x (by simp [Updates.exprs, hx])) root i hinit
    simp only [Updates.eval, hi, hv, hn]

end

/-! ## `findSymbolicObjects` -/

/-- The array of a read, unless it is constant or has been found. -/
def addObject (root : Array) (objects : List Array) : List Array :=
  if root.isSymbolicArray = true ∧ root ∉ objects then objects ++ [root] else objects

mutual

/-- `SymbolicObjectFinder`. The table of visited expressions spares only visits that find nothing new. -/
def Expr.findObjects : Expr → List Array → List Array
  | .constant _, objects => objects
  | .read root head index, objects => index.findObjects (addObject root (head.findObjects objects))
  | .notOptimized e, objects | .not e, objects | .extract e _ _, objects | .zext e _, objects | .sext e _, objects =>
    e.findObjects objects
  | .select c t f, objects => f.findObjects (t.findObjects (c.findObjects objects))
  | .concat l r, objects | .bin _ l r, objects | .cmp _ l r, objects => r.findObjects (l.findObjects objects)

def Updates.findObjects : Updates → List Array → List Array
  | .nil, objects => objects
  | .cons index value next, objects => next.findObjects (value.findObjects (index.findObjects objects))

end

def findSymbolicObjects (es : List Expr) : List Array := es.foldl (fun objects e => e.findObjects objects) []

/-- Every symbolic array that is read is one of `A`. -/
def NodeCond.over (A : Set Array) : NodeCond where
  read root _ := root.isSymbolicArray = true → root ∈ A
  div _ _ := True

theorem mem_addObject {root a : Array} {objects : List Array} :
    a ∈ addObject root objects ↔ a ∈ objects ∨ a = root ∧ root.isSymbolicArray = true := by
  unfold addObject
  split
  · rename_i h
    simp [h.1]
  · rename_i h
    rw [not_and_not_right] at h
    constructor
    · exact .inl
    · rintro (ha | ⟨rfl, hs⟩)
      · exact ha
      · exact h hs

/-- What is found before stays, and the arrays found are enough for `ok`. -/
def Collects (objects found : List Array) (ok : Set Array → Prop) : Prop :=
  (∀ a ∈ objects, a ∈ found) ∧ ∀ A : Set Array, (∀ a ∈ found, a ∈ A) → ok A

section

variable {objects found found' : List Array} {ok ok' : Set Array → Prop} (h : Collects objects found ok)

include h

theorem Collects.trans (h' : Collects found found' ok') : Collects objects found' fun A => ok A ∧ ok' A :=
  ⟨fun a ha => h'.1 a (h.1 a ha), fun A hA => ⟨h.2 A fun a ha => hA a (h'.1 a ha), h'.2 A hA⟩⟩

theorem Collects.imp (hok : ∀ A, ok A → ok' A) : Collects objects found ok' := ⟨h.1, fun A hA => hok A (h.2 A hA)⟩

end

theorem addObject_collects (root : Array) (objects : List Array) :
    Collects objects (addObject root objects) fun A => root.isSymbolicArray = true → root ∈ A :=
  ⟨fun _ ha => mem_addObject.2 (.inl ha), fun _ hA hs => hA root (mem_addObject.2 (.inr ⟨rfl, hs⟩))⟩

mutual

/-- The arrays found are all that the expression reads. -/
theorem Expr.findObjects_spec : ∀ (e : Expr), e.WF → ∀ objects : List Array,
    Collects objects (e.findObjects objects) fun A => e.Ok (.over A)
  | .constant _, h, _ => ⟨fun _ ha => ha, fun _ _ => h⟩
  | .notOptimized e, h, objects | .not e, h, objects => Expr.findObjects_spec e h objects
  | .extract e _ _, h, objects | .zext e _, h, objects | .sext e _, h, objects =>
    (Expr.findObjects_spec e h.1 objects).imp fun _ he => ⟨he, h.2⟩
  | .select c t f, h, objects => by
    have hcond := Expr.findObjects_spec c h.1 objects
    have hoperands := hcond.trans ((Expr.findObjects_spec t h.2.1 _).trans (Expr.findObjects_spec f h.2.2.1 _))
    exact hoperands.imp fun _ ⟨hc, ht, hf⟩ => ⟨hc, ht, hf, h.2.2.2⟩
  | .concat l r, h, objects => (Expr.findObjects_spec l h.1 objects).trans (Expr.findObjects_spec r h.2 _)
  | .cmp _ l r, h, objects => by
    have hoperands := (Expr.findObjects_spec l h.1 objects).trans (Expr.findObjects_spec r h.2.1 _)
    exact hoperands.imp fun _ ⟨hl, hr⟩ => ⟨hl, hr, h.2.2⟩
  | .bin _ l r, h, objects => by
    have hoperands := (Expr.findObjects_spec l h.1 objects).trans (Expr.findObjects_spec r h.2.1 _)
    exact hoperands.imp fun _ ⟨hl, hr⟩ => ⟨hl, hr, h.2.2.1, fun _ => trivial⟩
  | .read root head index, h, objects => by
    have hhead := Updates.findObjects_spec head h.1 objects
    have hread := hhead.trans ((addObject_collects root _).trans (Expr.findObjects_spec index h.2.1 _))
    exact hread.imp fun _ ⟨hh, hroot, hi⟩ => ⟨hh, hi, h.2.2.1, hroot⟩

theorem Updates.findObjects_spec : ∀ (u : Updates), u.WF → ∀ objects : List Array,
    Collects objects (u.findObjects objects) fun A => u.Ok (.over A)
  | .nil, _, _ => ⟨fun _ ha => ha, fun _ _ => trivial⟩
  | .cons index value next, h, objects => by
    have hindex := Expr.findObjects_spec index h.1 objects
    have hnode := hindex.trans ((Expr.findObjects_spec value h.2.1 _).trans (Updates.findObjects_spec next h.2.2.2.2 _))
    exact hnode.imp fun _ ⟨hi, hv, hn⟩ => ⟨hi, hv, h.2.2.1, h.2.2.2.1, hn⟩

end

theorem findSymbolicObjects_over {es : List Expr} (h : ∀ e ∈ es, e.WF) :
    ∀ e ∈ es, e.Ok (.over {a | a ∈ findSymbolicObjects es}) := by
  suffices ∀ objects, Collects objects (es.foldl (fun objects e => e.findObjects objects) objects) fun A =>
      ∀ e ∈ es, e.Ok (.over A) from (this []).2 _ fun _ ha => ha
  induction es with
  | nil => exact fun _ => ⟨fun _ ha => ha, fun _ _ _ he => nomatch he⟩
  | cons e es ih =>
    intro objects
    have he := e.findObjects_spec (h e mem_cons_self) objects
    exact (he.trans (ih (fun x hx => h x (mem_cons_of_mem e hx)) _)).imp fun _ hall => forall_mem_cons.2 hall

/-- The assignments that give no byte beyond the end of an array. -/
def boundedAssignments : Set Assignment := {σ | ∀ a i, a.size ≤ i → σ a i = 0}

theorem Updates.Ok.exprs {P : NodeCond} : ∀ {u : Updates}, u.Ok P → ∀ x ∈ u.exprs, x.Ok P
  | .nil, _, x, hx => nomatch hx
  | .cons index value next, h, x, hx => by
    rcases mem_cons.1 hx with rfl | hx
    · exact h.1
    · rcases mem_cons.1 hx with rfl | hx
      · exact h.2.1
      · exact exprs h.2.2.2.2 x hx

/-- The value of an expression is decided by the symbolic arrays that it reads. -/
theorem Expr.eval_eq_of_agree {A : Set Array} {e : Expr} (he : e.Ok (.over A)) {σ τ : Assignment}
    (hσ : σ ∈ boundedAssignments) (hτ : τ ∈ boundedAssignments) (h : ∀ a ∈ A, ∀ i, σ a i = τ a i) (w : Nat) :
    e.eval σ w = e.eval τ w := by
  refine eval_congr (V := {x | x.Ok (.over A)}) ?_ ?_ e (.inr he) w
  · intro v hv x hx
    refine .inr ?_
    cases v with
    | read root head index =>
      rcases mem_cons.1 hx with rfl | hx
      · exact hv.2.1
      · exact hv.1.exprs x hx
    | _ => exact hv.kid hx
  · intro root head index hr
    generalize (index.eval σ 32).toNat = i
    unfold Assignment.initial
    by_cases hs : root.isSymbolicArray = true
    · rw [h root (hr.2.2.2 hs)]
    · have hlen : root.constantValues.length = root.size := by
        refine root.valid.resolve_left fun h0 => hs ?_
        simp [Array.isSymbolicArray, h0]
      by_cases hi : i < root.size
      · simp [getD_eq_getElem?_getD, List.getElem?_eq_getElem (hlen ▸ hi)]
      · rw [hσ root i (Nat.not_lt.1 hi), hτ root i (Nat.not_lt.1 hi)]

end S2E.Klee
