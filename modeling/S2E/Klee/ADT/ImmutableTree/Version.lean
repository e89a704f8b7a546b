import S2E.Klee.ADT.ImmutableTree.Iterator

/-!
# The versions of an `ImmutableTree`

A program that holds any number of trees: each operation makes a new version from one that is there, and any version may
be given up. Beside it goes the same program on finite maps.

* `Version.insert`, … : the member functions of `ImmutableTree`; `step`, `run` : a program in memory, from the empty tree;
* `stepMaps`, `runMaps` : the program on maps from keys to values;
* `Good key t m` : the tree is balanced and ordered, its stored heights are exact and it holds the entries of `m`;
* `Stands key h vs ms` : the versions are the trees that the heap owns, and each is good for its map;
* `step_stands` : a step keeps that, and the trees of the versions that are there before and after.
-/

namespace S2E.Klee.ImmutableTree

open Lib Lib.RefCount Function List Option

variable {α κ : Type} [Inhabited α]

namespace Version

/-- A call on the root: as many calls are nested as the tree is high. -/
def call {γ : Type} (f : Nat → Ptr → NodeM α γ) (p : Ptr) : NodeM α γ := do
  let n ← Node.fields p
  f (n.data.height + 1) p

/-- The value that was taken out, and the tree. -/
def popMin (p : Ptr) : NodeM α (α × Ptr) := call Node.popMin p

def popMax (p : Ptr) : NodeM α (α × Ptr) := call Node.popMax p

def min (p : Ptr) : NodeM α α := do
  if p = none then throw .assertFailed
  else call Node.min p

variable [LinearOrder κ] (key : α → κ)

def insert (v : α) (p : Ptr) : NodeM α Ptr := call (Node.insert key v) p

def replace (v : α) (p : Ptr) : NodeM α Ptr := call (Node.replace key v) p

def remove (k : κ) (p : Ptr) : NodeM α Ptr := call (Node.remove key k) p

def lookup (k : κ) (p : Ptr) : NodeM α (Option α) := call (Node.lookup key k) p

def lookupPrevious (k : κ) (p : Ptr) : NodeM α (Option α) := call (fun fuel => Node.lookupPrevious key k fuel none) p

end Version

/-! ## Programs -/

/-- What makes a new tree from another. -/
inductive Operation (α κ : Type)
  | insert (v : α)
  | replace (v : α)
  | remove (k : κ)
  | popMin
  | popMax

inductive Command (α κ : Type)
  | make (i : Nat) (op : Operation α κ)
  | destroy (i : Nat)

section

variable [LinearOrder κ] (key : α → κ)

def Operation.exec : Operation α κ → Ptr → NodeM α Ptr
  | .insert v, p => Version.insert key v p
  | .replace v, p => Version.replace key v p
  | .remove k, p => Version.remove key k p
  | .popMin, p => do
    let r ← Version.popMin p
    return r.2
  | .popMax, p => do
    let r ← Version.popMax p
    return r.2

/-- A new version comes last. A command on a version that is not there does nothing. -/
def step (vs : List Ptr) : Command α κ → NodeM α (List Ptr)
  | .make i op =>
    match vs[i]? with
    | none => return vs
    | some p => do
      let q ← op.exec key p
      return vs ++ [q]
  | .destroy i =>
    match vs[i]? with
    | none => return vs
    | some p => do
      Node.release p
      return vs.eraseIdx i

/-- Before the first tree: the terminator counts three references. -/
def noTrees : RefCount.Heap (NodeData α) := ⟨fun _ => none, 0, 3⟩

/-- A program that starts with an empty tree. -/
def run (cmds : List (Command α κ)) : NodeM α (List Ptr) := do
  let p ← incref none
  cmds.foldlM (step key) [p]

/-- The operation on trees that are not in memory. -/
def Operation.onTree (t : ImmutableTree α) : Operation α κ → ImmutableTree α
  | .insert v => ImmutableTree.insert key v t
  | .replace v => ImmutableTree.replace key v t
  | .remove k => ImmutableTree.remove key k t
  | .popMin => (popMinRoot t).2
  | .popMax => (popMaxRoot t).2

/-! ## Programs on maps -/

open Classical in
/-- Without the entry whose key `least` singles out among all, if there is one. -/
noncomputable def dropAt (least : Set κ → κ → Prop) (m : κ → Option α) : κ → Option α :=
  if h : ∃ k, least {k | m k ≠ none} k then update m h.choose none else m

noncomputable def Operation.onMap (m : κ → Option α) : Operation α κ → κ → Option α
  | .insert v => if m (key v) = none then update m (key v) (some v) else m
  | .replace v => update m (key v) (some v)
  | .remove k => update m k none
  | .popMin => dropAt IsLeast m
  | .popMax => dropAt IsGreatest m

noncomputable def stepMaps (ms : List (κ → Option α)) : Command α κ → List (κ → Option α)
  | .make i op => ms ++ (ms[i]?.map (op.onMap key)).toList
  | .destroy i => ms.eraseIdx i

noncomputable def runMaps (cmds : List (Command α κ)) : List (κ → Option α) :=
  cmds.foldl (stepMaps key) [fun _ => none]

/-! ## What holds of every version -/

/-- The entries of the map are the values of the tree. -/
def Maps (t : ImmutableTree α) (m : κ → Option α) : Prop := ∀ k v, m k = some v ↔ v ∈ t.toList ∧ key v = k

structure Good (t : Shape (NodeData α)) (m : κ → Option α) : Prop where
  exact : Exact t
  balanced : (plain t).Balanced
  ordered : Ordered key (plain t)
  maps : Maps key (plain t) m

def Stands (h : RefCount.Heap (NodeData α)) (vs : List Ptr) (ms : List (κ → Option α)) : Prop :=
  ∃ ts : List (Shape (NodeData α)), vs = ts.map ptr ∧ Owns h ts ∧ List.Forall₂ (Good key) ts ms

end

section Operations

variable {h : RefCount.Heap (NodeData α)} {R : Multiset (Shape (NodeData α))} {t : Shape (NodeData α)}

theorem call_runs {γ : Type} {f : Nat → Ptr → NodeM α γ} {Q : γ → RefCount.Heap (NodeData α) → Prop} (ht : Rep h t)
    (hex : Exact t)
    (hf : Runs (f (t.height + 1) (ptr t)) h Q) : Runs (Version.call f (ptr t)) h Q := by
  refine fields_bind ht fun n => ?_
  rw [hex.height, height_plain]
  exact hf

variable [LinearOrder κ] (key : α → κ)

theorem exec_runs (op : Operation α κ) (ho : Owns h R) (ht : Borrowed R t) (hex : Exact t) :
    Runs (op.exec key (ptr t)) h (Result R (op.onTree key (plain t))) := by
  have hrep : Rep h t := ho.borrowed ht
  have hfuel : t.height < t.height + 1 := Nat.lt_succ_self _
  cases op with
  | insert v => exact call_runs hrep hex (insert_runs key ho ht hex hfuel v)
  | replace v => exact call_runs hrep hex (replace_runs key ho ht hex hfuel v)
  | remove k => exact call_runs hrep hex (remove_runs key ho ht hex hfuel k)
  | popMin =>
    refine Runs.bind (call_runs hrep hex (popMin_runs ho ht hex hfuel)) fun r h' hr => ?_
    exact Runs.pure hr.2
  | popMax =>
    refine Runs.bind (call_runs hrep hex (popMax_runs ho ht hex hfuel)) fun r h' hr => ?_
    exact Runs.pure hr.2

end Operations

/-! ## Trees and maps -/

variable {v : α} {k : κ} {vs : List α} {s : ImmutableTree α} {least : Set κ → κ → Prop}
  {keeps : RefCount.Heap (NodeData α) → Prop}

section Maps

variable [LinearOrder κ] {key : α → κ} {t : ImmutableTree α} {m : κ → Option α}

theorem onTree_balanced (op : Operation α κ) (hb : t.Balanced) : (op.onTree key t).Balanced := by
  cases op with
  | insert v => exact (insert_grows v hb).balanced
  | replace v => exact (replace_grows v hb).balanced
  | remove k => exact (remove_shrinks k hb).balanced
  | popMin =>
    cases t with
    | terminator => trivial
    | node left value right => exact (popMin_shrinks hb).balanced
  | popMax =>
    cases t with
    | terminator => trivial
    | node left value right => exact (popMax_shrinks hb).balanced

omit [Inhabited α] [LinearOrder κ] in
theorem Maps.eq_none_iff (hm : Maps key t m) (k : κ) : m k = none ↔ ∀ x ∈ t.toList, key x ≠ k := by
  constructor
  · intro hnone x hx hkey
    rw [(hm k x).2 ⟨hx, hkey⟩] at hnone
    cases hnone
  · intro hall
    cases hv : m k with
    | none => rfl
    | some v =>
      obtain ⟨hv, hkey⟩ := (hm k v).1 hv
      exact absurd hkey (hall v hv)

section

omit [Inhabited α]

theorem Maps.insert (hm : Maps key t m) (ho : Ordered key t) :
    Maps key (ImmutableTree.insert key v t) (Operation.onMap key m (.insert v)) := by
  intro k x
  rw [mem_insert ho, ← hm.eq_none_iff, Operation.onMap]
  by_cases hnew : m (key v) = none
  · rw [if_pos hnew, update_apply]
    split_ifs with hk
    · subst hk
      have hold : ¬ (x ∈ t.toList ∧ key x = key v) := by
        rw [← hm, hnew]
        simp
      constructor
      · grind
      · rintro ⟨hx | ⟨rfl, -⟩, hkey⟩
        · exact absurd ⟨hx, hkey⟩ hold
        · rfl
    · rw [hm]
      constructor
      · grind
      · rintro ⟨hx | ⟨rfl, -⟩, hkey⟩
        · exact ⟨hx, hkey⟩
        · exact absurd hkey.symm hk
  · rw [if_neg hnew, hm]
    simp [hnew]

theorem Maps.replace (hm : Maps key t m) (ho : Ordered key t) :
    Maps key (ImmutableTree.replace key v t) (Operation.onMap key m (.replace v)) := by
  intro k x
  rw [mem_replace ho, Operation.onMap, update_apply]
  split_ifs with hk
  · subst hk
    constructor
    · grind
    · rintro ⟨rfl | ⟨-, hne⟩, hkey⟩
      · rfl
      · exact absurd hkey hne
  · rw [hm]
    constructor
    · grind
    · rintro ⟨rfl | ⟨hx, -⟩, hkey⟩
      · exact absurd hkey.symm hk
      · exact ⟨hx, hkey⟩

/-- A tree with the values that have another key. -/
theorem Maps.without (hm : Maps key t m)
    (hs : ∀ x, x ∈ s.toList ↔ x ∈ t.toList ∧ key x ≠ k) : Maps key s (update m k none) := by
  intro k' x
  rw [hs, update_apply]
  split_ifs with hk
  · subst hk
    constructor
    · intro hx
      cases hx
    · grind
  · rw [hm]
    constructor
    · grind
    · grind

theorem dropAt_eq (hk : least {k | m k ≠ none} k)
    (hunique : ∀ k', least {k | m k ≠ none} k' → k' = k) : dropAt least m = update m k none := by
  have hex : ∃ k, least {k | m k ≠ none} k := ⟨k, hk⟩
  unfold dropAt
  rw [dif_pos hex, hunique _ hex.choose_spec]

end

omit [Inhabited α] [LinearOrder κ] in
theorem Maps.mem_dom (hm : Maps key t m) : m k ≠ none ↔ ∃ x ∈ t.toList, key x = k := by
  rw [ne_eq, hm.eq_none_iff]
  push Not
  rfl

section

omit [Inhabited α]

theorem Maps.isLeast (hm : Maps key t m) (ho : Ordered key t) (hv : t.toList = v :: vs) :
    IsLeast {k | m k ≠ none} (key v) := by
  unfold Ordered at ho
  rw [hv, pairwise_cons] at ho
  refine ⟨hm.mem_dom.2 ⟨v, by rw [hv]; exact mem_cons_self, rfl⟩, fun k hk => ?_⟩
  obtain ⟨x, hx, rfl⟩ := hm.mem_dom.1 hk
  rw [hv] at hx
  rcases mem_cons.1 hx with rfl | hx
  · exact le_rfl
  · exact (ho.1 x hx).le

theorem Maps.isGreatest (hm : Maps key t m) (ho : Ordered key t) (hv : t.toList = vs ++ [v]) :
    IsGreatest {k | m k ≠ none} (key v) := by
  unfold Ordered at ho
  rw [hv, pairwise_append] at ho
  refine ⟨hm.mem_dom.2 ⟨v, by rw [hv]; simp, rfl⟩, fun k hk => ?_⟩
  obtain ⟨x, hx, rfl⟩ := hm.mem_dom.1 hk
  rw [hv, mem_append, mem_singleton] at hx
  rcases hx with hx | rfl
  · exact (ho.2.2 x hx v (by simp)).le
  · exact le_rfl

theorem Maps.dropAt_terminator (hm : Maps key terminator m)
    (hleast : ∀ s k, least s k → k ∈ s) : dropAt least m = m := by
  have hnone : ¬ ∃ k, least {k | m k ≠ none} k := by
    rintro ⟨k, hk⟩
    obtain ⟨x, hx, -⟩ := hm.mem_dom.1 (hleast _ _ hk)
    cases hx
  unfold dropAt
  rw [dif_neg hnone]

end

theorem Maps.popMin (hm : Maps key t m) (ho : Ordered key t) :
    Ordered key (popMinRoot t).2 ∧ Maps key (popMinRoot t).2 (dropAt IsLeast m) := by
  cases t with
  | terminator =>
    rw [hm.dropAt_terminator fun s k hk => hk.1]
    exact ⟨ho, hm⟩
  | node left value right =>
    have hlist := toList_popMin left value right
    have hsorted : ((ImmutableTree.popMin left value right).1 ::
        (ImmutableTree.popMin left value right).2.toList).Pairwise fun a b => key a < key b := hlist ▸ ho
    have hlt := pairwise_cons.1 hsorted
    have hleast := hm.isLeast ho hlist.symm
    refine ⟨hlt.2, ?_⟩
    rw [dropAt_eq hleast fun k hk => hk.unique hleast]
    refine hm.without fun x => ?_
    rw [toList_node, ← hlist, mem_cons]
    constructor
    · intro hx
      exact ⟨.inr hx, (hlt.1 x hx).ne'⟩
    · rintro ⟨rfl | hx, hne⟩
      · exact absurd rfl hne
      · exact hx

theorem Maps.popMax (hm : Maps key t m) (ho : Ordered key t) :
    Ordered key (popMaxRoot t).2 ∧ Maps key (popMaxRoot t).2 (dropAt IsGreatest m) := by
  cases t with
  | terminator =>
    rw [hm.dropAt_terminator fun s k hk => hk.1]
    exact ⟨ho, hm⟩
  | node left value right =>
    have hlist := toList_popMax left value right
    have hsorted : ((ImmutableTree.popMax left value right).2.toList ++
        [(ImmutableTree.popMax left value right).1]).Pairwise fun a b => key a < key b := hlist ▸ ho
    have hlt := pairwise_append.1 hsorted
    have hgreatest := hm.isGreatest ho hlist.symm
    refine ⟨hlt.1, ?_⟩
    rw [dropAt_eq hgreatest fun k hk => hk.unique hgreatest]
    refine hm.without fun x => ?_
    rw [toList_node, ← hlist, mem_append, mem_singleton]
    constructor
    · intro hx
      exact ⟨.inl hx, (hlt.2.2 x hx _ (by simp)).ne⟩
    · rintro ⟨hx | rfl, hne⟩
      · exact hx
      · exact absurd rfl hne

theorem Maps.onTree (op : Operation α κ) (hm : Maps key t m) (ho : Ordered key t) :
    Ordered key (op.onTree key t) ∧ Maps key (op.onTree key t) (op.onMap key m) := by
  cases op with
  | insert v => exact ⟨ho.insert v, hm.insert ho⟩
  | replace v => exact ⟨ho.replace v, hm.replace ho⟩
  | remove k => exact ⟨ho.remove k, hm.without fun x => mem_remove ho⟩
  | popMin => exact hm.popMin ho
  | popMax => exact hm.popMax ho

end Maps

/-! ## Runs -/

section Runs

variable [LinearOrder κ] {key : α → κ} {h : RefCount.Heap (NodeData α)} {vs : List Ptr} {ms : List (κ → Option α)}

theorem step_stands (hs : Stands key h vs ms) (c : Command α κ) : Runs (step key vs c) h fun vs' h' =>
    Stands key h' vs' (stepMaps key ms c) ∧ ∀ t, ptr t ∈ vs → ptr t ∈ vs' → Rep h t → Rep h' t := by
  obtain ⟨ts, rfl, ho, hgood⟩ := hs
  -- the tree at a pointer of a version is that of the version
  have hsame : ∀ t, ptr t ∈ ts.map ptr → Rep h t → t ∈ ts := by
    intro t hp ht
    obtain ⟨s, hs, heq⟩ := mem_map.1 hp
    obtain rfl := (ho.rep s hs).unique ht heq
    exact hs
  cases c with
  | make i op =>
    simp only [step, stepMaps, List.getElem?_map]
    cases hi : ts[i]? with
    | none =>
      have hi' : ms[i]? = none := by
        rw [List.getElem?_eq_none_iff] at hi ⊢
        rwa [← hgood.length_eq]
      rw [hi', map_none, map_none, toList_none, append_nil]
      exact Runs.pure ⟨⟨ts, rfl, ho, hgood⟩, fun t _ _ ht => ht⟩
    | some t =>
      obtain ⟨hlt, rfl⟩ := List.getElem?_eq_some_iff.1 hi
      have hlt' : i < ms.length := hgood.length_eq ▸ hlt
      have hgt : Good key ts[i] ms[i] := hgood.get hlt hlt'
      rw [List.getElem?_eq_getElem hlt', map_some, map_some, toList_some]
      have hmem : ts[i] ∈ (ts : Multiset (Shape (NodeData α))) := getElem_mem hlt
      refine Result.bind (exec_runs key op ho (Borrowed.of_mem hmem) hgt.exact) fun t' h' ho' hex heq => ?_
      have hnew : Good key t' (op.onMap key ms[i]) := by
        obtain ⟨hord, hmaps⟩ := hgt.maps.onTree op hgt.ordered
        exact ⟨hex, heq ▸ onTree_balanced op hgt.balanced, heq ▸ hord, heq ▸ hmaps⟩
      refine Runs.pure ⟨⟨ts ++ [t'], by simp, ?_, ?_⟩, fun t hp _ ht => ?_⟩
      · rw [← Multiset.coe_add, Multiset.add_comm]
        exact ho'
      · exact rel_append hgood (.cons hnew .nil)
      · exact ho'.rep t (Multiset.mem_cons_of_mem (hsame t hp ht))
  | destroy i =>
    simp only [step, stepMaps, List.getElem?_map]
    cases hi : ts[i]? with
    | none =>
      have hlen : ms.length ≤ i := hgood.length_eq ▸ List.getElem?_eq_none_iff.1 hi
      rw [eraseIdx_of_length_le hlen]
      exact Runs.pure ⟨⟨ts, rfl, ho, hgood⟩, fun t _ _ ht => ht⟩
    | some t =>
      obtain ⟨hlt, rfl⟩ := List.getElem?_eq_some_iff.1 hi
      have hgt : Good key ts[i] (ms.get ⟨i, hgood.length_eq ▸ hlt⟩) := hgood.get hlt _
      have hperm : (ts : Multiset (Shape (NodeData α))) = ts[i] ::ₘ (ts.eraseIdx i : Multiset _) :=
        (Multiset.coe_eq_coe.2 (getElem_cons_eraseIdx_perm hlt)).symm
      rw [hperm] at ho
      refine Runs.bind (release_runs ho hgt.exact) fun _ h' ho' => ?_
      rw [eraseIdx_map]
      refine Runs.pure ⟨⟨ts.eraseIdx i, rfl, ho', ?_⟩, fun t hp hp' ht => ?_⟩
      · rw [eraseIdx_eq_take_drop_succ, eraseIdx_eq_take_drop_succ]
        exact rel_append (forall₂_take _ hgood) (forall₂_drop _ hgood)
      · obtain ⟨s, hs, heq⟩ := mem_map.1 hp'
        obtain rfl := (ho.rep s (Multiset.mem_cons_of_mem hs)).unique ht heq
        exact ho'.rep s hs

omit [Inhabited α] in
theorem noTrees_owns : Owns (noTrees : RefCount.Heap (NodeData α)) 0 := by
  refine ⟨?_, ?_, ?_, ?_, ?_, ?_⟩
  · intro a c hc
    cases hc
  · intro a c hc
    cases hc
  · intro t ht
    simp at ht
  · intro a c hc
    cases hc
  · intro a c hc
    cases hc
  · simp [indegree, noTrees]

theorem run_stands (key : α → κ) (cmds : List (Command α κ)) :
    Runs (run key cmds) noTrees fun vs h => Stands key h vs (runMaps key cmds) := by
  have hsteps : ∀ (cmds : List (Command α κ)) {h : RefCount.Heap (NodeData α)} {vs : List Ptr} {ms : List (κ → Option α)},
      Stands key h vs ms → Runs (cmds.foldlM (step key) vs) h fun vs' h' =>
        Stands key h' vs' (cmds.foldl (stepMaps key) ms) := by
    intro cmds
    induction cmds with
    | nil => exact fun hs => Runs.pure hs
    | cons c cmds ih =>
      intro h vs ms hs
      rw [foldlM_cons]
      exact Runs.bind (step_stands hs c) fun vs' h' hs' => ih hs'.1
  refine incref_bind (t := .nil) noTrees_owns .nil fun h ho => hsteps cmds ?_
  refine ⟨[.nil], rfl, ho, .cons ⟨trivial, trivial, List.Pairwise.nil, fun k v => ?_⟩ .nil⟩
  simp [plain]

end Runs

/-! ## Questions to a version -/

section Answers

variable [LinearOrder κ] (key : α → κ)

/-- The last entry up to the key, or that there is none. -/
def IsPreviousIn (m : κ → Option α) (k : κ) : Option α → Prop
  | none => ∀ k' ≤ k, m k' = none
  | some v => IsGreatest {k' | k' ≤ k ∧ m k' ≠ none} (key v) ∧ m (key v) = some v

/-- A loop over the iterator that `make` returns sees the entries with the keys `P`, in order. -/
def Visits (h : RefCount.Heap (NodeData α)) (m : κ → Option α) (P : κ → Prop) (make : NodeM α Iterator)
    (keeps : RefCount.Heap (NodeData α) → Prop) : Prop :=
  ∃ L : List α, (L.Pairwise fun a b => key a < key b) ∧ (∀ k v, v ∈ L ∧ key v = k ↔ m k = some v ∧ P k) ∧
    ∀ fuel, L.length < fuel → Runs (do
      let it ← make
      let seen ← it.visit fuel
      Node.release it.root
      return seen) h fun seen h' => seen = L ∧ keeps h'

structure Answers (h : RefCount.Heap (NodeData α)) (p : Ptr) (m : κ → Option α)
    (keeps : RefCount.Heap (NodeData α) → Prop) : Prop where
  lookup : ∀ k, Runs (Version.lookup key k p) h fun o h' => o = m k ∧ h' = h
  lookupPrevious : ∀ k, Runs (Version.lookupPrevious key k p) h fun o h' => IsPreviousIn key m k o ∧ h' = h
  min : ∀ k, IsLeast {k | m k ≠ none} k → Runs (Version.min p) h fun v h' => m k = some v ∧ h' = h
  popMin : ∀ k, IsLeast {k | m k ≠ none} k → Runs (Version.popMin p) h fun r _ => m k = some r.1
  popMax : ∀ k, IsGreatest {k | m k ≠ none} k → Runs (Version.popMax p) h fun r _ => m k = some r.1
  all : Visits key h m (fun _ => True) (begin p) keeps
  lowerBound : ∀ k, Visits key h m (k ≤ ·) (lowerBound key k p) keeps
  upperBound : ∀ k, Visits key h m (k < ·) (upperBound key k p) keeps

variable {key} {h : RefCount.Heap (NodeData α)} {R : Multiset (Shape (NodeData α))} {t : Shape (NodeData α)}
  {m : κ → Option α}

theorem visits_of_runs {make : NodeM α Iterator} {P : κ → Prop} [DecidablePred P]
    (hkeeps : ∀ h', Owns h' R → keeps h') (ht : Borrowed R t) (hg : Good key t m)
    (hmake : Runs make h fun it h' => Iterates it t ((plain t).toList.filter fun v => P (key v)) ∧ Owns h' (t ::ₘ R)) :
    Visits key h m P make keeps := by
  refine ⟨(plain t).toList.filter fun v => P (key v), hg.ordered.filter _, fun k v => ?_, fun fuel hfuel => ?_⟩
  · rw [mem_filter, hg.maps, decide_eq_true_eq]
    constructor
    · grind
    · grind
  · refine Runs.bind hmake ?_
    rintro it h₁ ⟨hi, ho₁⟩
    refine Runs.bind (visit_runs (ho₁.borrowed ht.cons) hg.ordered hi hfuel) ?_
    rintro _ _ ⟨rfl, rfl⟩
    rw [hi.root_eq]
    exact Runs.bind (release_runs ho₁ hg.exact) fun _ h₂ ho₂ => Runs.pure ⟨rfl, hkeeps h₂ ho₂⟩

section

omit [Inhabited α]

section

variable (hm : Maps key s m) (ho : Ordered key s)

include hm ho

theorem Maps.isPreviousIn (k : κ) : IsPreviousIn key m k (ImmutableTree.lookupPrevious key s k) := by
  cases hprev : ImmutableTree.lookupPrevious key s k with
  | none =>
    intro k' hk'
    refine (hm.eq_none_iff k').2 fun x hx hkey => ?_
    exact absurd (lookupPrevious_none ho hprev x hx) (hkey ▸ hk').not_gt
  | some v =>
    obtain ⟨hv, hle, hmax⟩ := (lookupPrevious_iff ho).1 hprev
    refine ⟨⟨⟨hle, hm.mem_dom.2 ⟨v, hv, rfl⟩⟩, ?_⟩, (hm _ v).2 ⟨hv, rfl⟩⟩
    rintro k' ⟨hk', hdom⟩
    obtain ⟨x, hx, rfl⟩ := hm.mem_dom.1 hdom
    exact hmax x hx hk'

theorem Maps.eq_some_of_isLeast (hv : s.toList = v :: vs) (hk : IsLeast {k | m k ≠ none} k) : m k = some v := by
  rw [hk.unique (hm.isLeast ho hv)]
  exact (hm _ v).2 ⟨by rw [hv]; exact mem_cons_self, rfl⟩

theorem Maps.eq_some_of_isGreatest (hv : s.toList = vs ++ [v]) (hk : IsGreatest {k | m k ≠ none} k) : m k = some v := by
  rw [hk.unique (hm.isGreatest ho hv)]
  exact (hm _ v).2 ⟨by rw [hv]; simp, rfl⟩

end

end

theorem Good.answers (hkeeps : ∀ h', Owns h' R → keeps h') (ho : Owns h R)
    (ht : Borrowed R t) (hg : Good key t m) : Answers key h (ptr t) m keeps := by
  have hrep : Rep h t := ho.borrowed ht
  have hfuel : t.height < t.height + 1 := Nat.lt_succ_self _
  have hnode : ∀ {k}, m k ≠ none → ∃ x l r, t = .node x l r := by
    intro k hk
    cases t with
    | nil =>
      obtain ⟨x, hx, -⟩ := hg.maps.mem_dom.1 hk
      cases hx
    | node x l r => exact ⟨x, l, r, rfl⟩
  refine ⟨fun k => ?_, fun k => ?_, fun k hk => ?_, fun k hk => ?_, fun k hk => ?_, ?_, fun k => ?_, fun k => ?_⟩
  · refine call_runs hrep hg.exact ((lookup_runs key k hrep hfuel).mono ?_)
    rintro o _ ⟨rfl, rfl⟩
    refine ⟨ext fun v => ?_, rfl⟩
    rw [lookup_eq_some_iff hg.ordered, hg.maps]
  · refine call_runs hrep hg.exact ((lookupPrevious_runs key k none hrep hfuel).mono ?_)
    rintro o _ ⟨rfl, rfl⟩
    exact ⟨hg.maps.isPreviousIn hg.ordered k, rfl⟩
  · obtain ⟨x, l, r, rfl⟩ := hnode hk.1
    refine call_runs hrep hg.exact ((min_runs hrep (by simp) hfuel).mono ?_)
    rintro v _ ⟨hv, rfl⟩
    obtain ⟨vs, hvs⟩ := List.head?_eq_some_iff.1 hv
    exact ⟨hg.maps.eq_some_of_isLeast hg.ordered hvs hk, rfl⟩
  · obtain ⟨x, l, r, rfl⟩ := hnode hk.1
    refine call_runs hrep hg.exact ((popMin_runs ho ht hg.exact hfuel).mono fun res h' hres => ?_)
    rw [hres.1]
    exact hg.maps.eq_some_of_isLeast hg.ordered (toList_popMin _ _ _).symm hk
  · obtain ⟨x, l, r, rfl⟩ := hnode hk.1
    refine call_runs hrep hg.exact ((popMax_runs ho ht hg.exact hfuel).mono fun res h' hres => ?_)
    rw [hres.1]
    exact hg.maps.eq_some_of_isGreatest hg.ordered (toList_popMax _ _ _).symm hk
  · have hbegin := begin_runs ho ht hg.exact
    refine visits_of_runs (P := fun _ => True) hkeeps ht hg ?_
    simpa using hbegin
  · exact visits_of_runs hkeeps ht hg (lowerBound_runs k ho ht hg.exact hg.ordered)
  · exact visits_of_runs hkeeps ht hg (upperBound_runs k ho ht hg.exact hg.ordered)

/-- After any program every version is a balanced search tree with exact heights for the map that the same program makes,
all questions to it are answered by that map, and a further command leaves the trees of the versions as they are. -/
theorem versions_agree (key : α → κ) (cmds : List (Command α κ)) : Runs (run key cmds) noTrees fun vs h =>
    Stands key h vs (runMaps key cmds) ∧
    (∀ (i : Nat) p m, vs[i]? = some p → (runMaps key cmds)[i]? = some m →
      Answers key h p m (Stands key · vs (runMaps key cmds))) ∧
    ∀ c, Runs (step key vs c) h fun vs' h' => Stands key h' vs' (stepMaps key (runMaps key cmds) c) ∧
      ∀ t, ptr t ∈ vs → ptr t ∈ vs' → Rep h t → Rep h' t := by
  refine (run_stands key cmds).mono fun vs h hs => ⟨hs, ?_, step_stands hs⟩
  intro i p m hp hm
  obtain ⟨ts, rfl, ho, hgood⟩ := hs
  rw [List.getElem?_map] at hp
  obtain ⟨t, ht, rfl⟩ := map_eq_some_iff.1 hp
  obtain ⟨hlt, rfl⟩ := List.getElem?_eq_some_iff.1 ht
  obtain ⟨hlt', rfl⟩ := List.getElem?_eq_some_iff.1 hm
  have hmem : ts[i] ∈ (ts : Multiset (Shape (NodeData α))) := getElem_mem hlt
  exact (hgood.get hlt hlt').answers (fun h' ho' => ⟨ts, rfl, ho', hgood⟩) ho (Borrowed.of_mem hmem)

end Answers

end S2E.Klee.ImmutableTree
