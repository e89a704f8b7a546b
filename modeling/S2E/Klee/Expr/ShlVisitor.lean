import S2E.Klee.Expr.Denotes
import S2E.Lib.Triple

/-!
# `ExprShlVisitor`: the overflow check of left shifts

* `parseExpr`, `createCheckExpr` : the shifts of an expression are collected in a map from the amount to the operand, and
  each entry gives a bound check against a 32-bit limit. The operands of `create` must have equal widths;
* `Loses x y` : shifting `x` left by `y` loses a one bit. `loses_iff` : that is `x` above the greatest value that the
  amount leaves room for;
* `Expr.shlExprs` : the shifts in the order in which they are met, those in update lists left out; `Expr.allShls` : all.
-/

namespace S2E.Klee

open S2E.Lib List Except Prod

/-- `shlExprMap`. -/
abbrev ShlMap := List (Expr × Expr)

section

variable (less : Expr → Expr → Bool)

/-- `shlExprMap.insert`: an amount that is there keeps its operand. -/
def ShlMap.insert (m : ShlMap) (right left : Expr) : ShlMap :=
  if right ∈ m.map fst then m else m.orderedInsert (fun a b => less a.1 b.1 = true) (right, left)

/-- `ExprShlVisitor::ParseExpr`. The kids of every node are visited; the updates of a read are not kids. -/
def parseExpr : Expr → ShlMap → ShlMap
  | .constant _, m => m
  | .notOptimized e, m | .not e, m | .extract e _ _, m | .zext e _, m | .sext e _, m | .read _ _ e, m => parseExpr e m
  | .select c t f, m => parseExpr f (parseExpr t (parseExpr c m))
  | .concat l r, m | .cmp _ l r, m => parseExpr r (parseExpr l m)
  | .bin k l r, m => parseExpr r (parseExpr l (if k = .shl then m.insert less r l else m))

variable [Options]

/-- The check of one entry. The widths are those that `LShrExpr::create` and `UleExpr::create` assert. -/
def shlCheck (right left : Expr) : Except Trap Expr :=
  if right.getWidth = 32 ∧ left.getWidth = 32 then
    .ok (UleExpr.create (LShrExpr.create (.const 0xFFFFFFFF 32) right) left)
  else .error .assertFailed

/-- One round of the loop. -/
def addCheck (new : Expr) (entry : Expr × Expr) : Except Trap Expr :=
  (shlCheck entry.1 entry.2).map (OrExpr.create new)

/-- `ExprShlVisitor::CreateCheckExpr`. -/
def createCheckExpr (e : Expr) : Except Trap Expr :=
  match parseExpr less e [] with
  | [] => .ok e
  | (right, left) :: rest => shlCheck right left >>= fun new => rest.foldlM addCheck new

end

/-! ## Lost bits -/

def Loses {w : Nat} (x y : BitVec w) : Prop := ∃ i, x.getLsbD i = true ∧ w ≤ i + y.toNat

theorem loses_iff {w : Nat} {x y : BitVec w} : Loses x y ↔ (2 ^ w - 1) / 2 ^ y.toNat < x.toNat := by
  rw [Nat.div_lt_iff_lt_mul (Nat.two_pow_pos _)]
  constructor
  · rintro ⟨i, hi, hw⟩
    have hx : 2 ^ i ≤ x.toNat := Nat.ge_two_pow_of_testBit hi
    calc 2 ^ w - 1 < 2 ^ w := Nat.sub_lt (Nat.two_pow_pos w) Nat.one_pos
      _ ≤ 2 ^ (i + y.toNat) := Nat.pow_le_pow_right Nat.two_pos hw
      _ = 2 ^ i * 2 ^ y.toNat := Nat.pow_add ..
      _ ≤ x.toNat * 2 ^ y.toNat := Nat.mul_le_mul_right _ hx
  · intro h
    have hx : x.toNat ≠ 0 := by grind
    -- the highest one bit is lost
    refine ⟨Nat.log2 x.toNat, Nat.testBit_log2 hx, ?_⟩
    have hlt : x.toNat * 2 ^ y.toNat < 2 ^ (Nat.log2 x.toNat + 1 + y.toNat) := by
      rw [Nat.pow_add]
      exact Nat.mul_lt_mul_of_pos_right Nat.lt_log2_self (Nat.two_pow_pos _)
    have hpow : 2 ^ w ≤ x.toNat * 2 ^ y.toNat := by omega
    have := (Nat.pow_lt_pow_iff_right Nat.one_lt_two).1 (lt_of_le_of_lt hpow hlt)
    omega

/-! ## The shifts of an expression -/

/-- The amounts and operands of the left shifts that `ParseExpr` meets, in order. -/
def Expr.shlExprs : Expr → List (Expr × Expr)
  | .constant _ => []
  | .notOptimized e | .not e | .extract e _ _ | .zext e _ | .sext e _ | .read _ _ e => e.shlExprs
  | .select c t f => c.shlExprs ++ t.shlExprs ++ f.shlExprs
  | .concat l r | .cmp _ l r => l.shlExprs ++ r.shlExprs
  | .bin k l r => (if k = .shl then [(r, l)] else []) ++ l.shlExprs ++ r.shlExprs

mutual

/-- All left shifts, those in update lists included. -/
def Expr.allShls : Expr → List (Expr × Expr)
  | .constant _ => []
  | .notOptimized e | .not e | .extract e _ _ | .zext e _ | .sext e _ => e.allShls
  | .read _ head e => head.allShls ++ e.allShls
  | .select c t f => c.allShls ++ t.allShls ++ f.allShls
  | .concat l r | .cmp _ l r => l.allShls ++ r.allShls
  | .bin k l r => (if k = .shl then [(r, l)] else []) ++ l.allShls ++ r.allShls

def Updates.allShls : Updates → List (Expr × Expr)
  | .nil => []
  | .cons index value next => index.allShls ++ value.allShls ++ next.allShls

end

theorem Expr.mem_allShls_of_mem_shlExprs {s : Expr × Expr} : ∀ e : Expr, s ∈ e.shlExprs → s ∈ e.allShls
  | .constant _, h => h
  | .notOptimized e, h | .not e, h | .extract e _ _, h | .zext e _, h | .sext e _, h =>
    mem_allShls_of_mem_shlExprs e h
  | .read _ head e, h => mem_append_right _ (mem_allShls_of_mem_shlExprs e h)
  | .select c t f, h => by
    have hc := mem_allShls_of_mem_shlExprs (s := s) c
    have ht := mem_allShls_of_mem_shlExprs (s := s) t
    have hf := mem_allShls_of_mem_shlExprs (s := s) f
    simp only [shlExprs, allShls, mem_append] at h ⊢
    exact h.imp (Or.imp hc ht) hf
  | .concat l r, h | .cmp _ l r, h => by
    have hl := mem_allShls_of_mem_shlExprs (s := s) l
    have hr := mem_allShls_of_mem_shlExprs (s := s) r
    simp only [shlExprs, allShls, mem_append] at h ⊢
    exact h.imp hl hr
  | .bin k l r, h => by
    have hl := mem_allShls_of_mem_shlExprs (s := s) l
    have hr := mem_allShls_of_mem_shlExprs (s := s) r
    simp only [shlExprs, allShls, mem_append] at h ⊢
    exact h.imp (Or.imp_right hl) hr

theorem Expr.Ok.shl {P : NodeCond} {s : Expr × Expr} : ∀ {e : Expr}, e.Ok P → s ∈ e.shlExprs →
    s.1.Ok P ∧ s.2.Ok P ∧ s.1.getWidth = s.2.getWidth
  | .constant _, _, hs => by simp [Expr.shlExprs] at hs
  | .notOptimized e, h, hs | .not e, h, hs => shl (e := e) h hs
  | .extract e _ _, h, hs | .zext e _, h, hs | .sext e _, h, hs => shl (e := e) h.1 hs
  | .read _ _ e, h, hs => shl (e := e) h.2.1 hs
  | .select c t f, h, hs => by
    simp only [Expr.shlExprs, mem_append] at hs
    rcases hs with (hs | hs) | hs
    exacts [shl h.1 hs, shl h.2.1 hs, shl h.2.2.1 hs]
  | .concat l r, h, hs => by
    rcases mem_append.1 hs with hs | hs
    exacts [shl h.1 hs, shl h.2 hs]
  | .cmp _ l r, h, hs => by
    rcases mem_append.1 hs with hs | hs
    exacts [shl h.1 hs, shl h.2.1 hs]
  | .bin k l r, h, hs => by
    simp only [Expr.shlExprs, mem_append] at hs
    rcases hs with (hs | hs) | hs
    · split at hs
      · obtain rfl := mem_singleton.1 hs
        exact ⟨h.2.1, h.1, h.2.2.1⟩
      · cases hs
    · exact shl h.1 hs
    · exact shl h.2.1 hs

/-! ## The map -/

variable {left right : Expr} {s : Expr × Expr}

section Map

variable {less : Expr → Expr → Bool}

theorem parseExpr_eq : ∀ (e : Expr) (m : ShlMap),
    parseExpr less e m = e.shlExprs.foldl (fun m s => m.insert less s.1 s.2) m
  | .constant _, m => rfl
  | .notOptimized e, m | .not e, m | .extract e _ _, m | .zext e _, m | .sext e _, m | .read _ _ e, m =>
    parseExpr_eq e m
  | .select c t f, m => by
    simp only [parseExpr, Expr.shlExprs, foldl_append, parseExpr_eq c, parseExpr_eq t, parseExpr_eq f]
  | .concat l r, m | .cmp _ l r, m => by
    simp only [parseExpr, Expr.shlExprs, foldl_append, parseExpr_eq l, parseExpr_eq r]
  | .bin k l r, m => by
    simp only [parseExpr, Expr.shlExprs, foldl_append, parseExpr_eq l, parseExpr_eq r]
    split <;> rfl

theorem mem_of_lookup {l : List (Expr × Expr)} {k v : Expr} (h : l.lookup k = some v) : (k, v) ∈ l := by
  obtain ⟨l₁, l₂, rfl, -⟩ := lookup_eq_some_iff.1 h
  simp

theorem ShlMap.mem_insert {m : ShlMap} {p : Expr × Expr} :
    p ∈ m.insert less right left ↔ p ∈ m ∨ p = (right, left) ∧ right ∉ m.map fst := by
  unfold insert
  split
  · rename_i h
    simp [h]
  · rename_i h
    rw [mem_orderedInsert]
    simp only [h, not_false_eq_true, and_true]
    exact or_comm

theorem ShlMap.mem_keys_insert {m : ShlMap} {k : Expr} :
    k ∈ (m.insert less right left).map fst ↔ k ∈ m.map fst ∨ k = right := by
  simp only [mem_map, mem_insert]
  constructor
  · rintro ⟨p, hp | ⟨rfl, -⟩, rfl⟩
    · exact .inl ⟨p, hp, rfl⟩
    · exact .inr rfl
  · rintro (⟨p, hp, rfl⟩ | rfl)
    · exact ⟨p, .inl hp, rfl⟩
    · by_cases hr : k ∈ m.map fst
      · grind
      · exact ⟨(k, left), .inr ⟨rfl, by simpa using hr⟩, rfl⟩

/-- The map gives an amount the operand of the first shift by it. -/
theorem mem_parseExpr {e : Expr} {p : Expr × Expr} : p ∈ parseExpr less e [] ↔ e.shlExprs.lookup p.1 = some p.2 := by
  have hfold : ∀ (l : List (Expr × Expr)) (m : ShlMap),
      p ∈ l.foldl (fun m s => m.insert less s.1 s.2) m ↔
        p ∈ m ∨ p.1 ∉ m.map fst ∧ l.lookup p.1 = some p.2 := by
    intro l
    induction l with
    | nil => simp
    | cons s l ih =>
      intro m
      obtain ⟨r, v⟩ := s
      rw [foldl_cons, ih, ShlMap.mem_insert, ShlMap.mem_keys_insert]
      obtain ⟨k, w⟩ := p
      by_cases hk : k = r
      · grind
      · grind
  rw [parseExpr_eq, hfold]
  simp

end Map

/-! ## The checks -/

/-- The shift loses a one bit under the assignment. -/
def Overflows (σ : Assignment) (s : Expr × Expr) : Prop :=
  Loses (s.2.eval σ s.2.getWidth) (s.1.eval σ s.2.getWidth)

/-- The greatest 32-bit value that the amount leaves room for. -/
def limit (σ : Assignment) (s : Expr × Expr) : Nat := (2 ^ 32 - 1) / 2 ^ (s.1.eval σ 32).toNat

/-- The operand reaches the limit. -/
def Reported (σ : Assignment) (s : Expr × Expr) : Prop := limit σ s ≤ (s.2.eval σ 32).toNat

/-- At 32 bits an overflow is reported; so is an operand at the limit. -/
theorem reported_iff {σ : Assignment} (h : s.2.getWidth = 32) :
    Reported σ s ↔ Overflows σ s ∨ (s.2.eval σ 32).toNat = limit σ s := by
  unfold Reported Overflows limit
  rw [h, loses_iff]
  omega

theorem limit_ule_iff (x y : BitVec 32) :
    ((0xFFFFFFFF#32 >>> y).ule x) = true ↔ (2 ^ 32 - 1) / 2 ^ y.toNat ≤ x.toNat := by
  rw [BitVec.ule, decide_eq_true_eq, BitVec.ushiftRight_eq', BitVec.toNat_ushiftRight, Nat.shiftRight_eq_div_pow]
  rfl

section Check

/-- Operands of 32 bits are built the same way whatever the options are. -/
theorem shlCheck_options (I : Options) : @shlCheck I = @shlCheck ⟨false, true⟩ := by
  funext right left
  have hshift : @LShrExpr.create I (.const 0xFFFFFFFF 32) right =
      @LShrExpr.create ⟨false, true⟩ (.const 0xFFFFFFFF 32) right := by
    cases right <;> rfl
  have hule (l r : Expr) (hw : l.getWidth ≠ 1) : @UleExpr.create I l r = @UleExpr.create ⟨false, true⟩ l r := by
    unfold UleExpr.create cmpcreate
    split
    · rfl
    · unfold uleExprCreate
      rw [if_neg hw, if_neg hw]
  unfold shlCheck
  rw [hshift, hule]
  cases right <;> exact Nat.succ_succ_ne_one 30

theorem createCheckExpr_options (I : Options) (less : Expr → Expr → Bool) (e : Expr) :
    @createCheckExpr less I e = @createCheckExpr less ⟨false, true⟩ e := by
  unfold createCheckExpr addCheck
  rw [shlCheck_options I]

/-- The boolean expression is true where one of the entries is reported. -/
structure ChecksFor (res : Expr) (S : ShlMap) : Prop where
  wf : res.WF
  width : res.getWidth = 1
  holds : ∀ σ, res.Holds σ ↔ ∃ s ∈ S, Reported σ s

theorem shlCheck_spec (hr : right.WF) (hl : left.WF) (hrw : right.getWidth = 32) (hlw : left.getWidth = 32) :
    ChecksFor (UleExpr.create (LShrExpr.create (.const 0xFFFFFFFF 32) right) left) [(right, left)] := by
  have hshift : (Expr.bin .lshr (.const 0xFFFFFFFF 32) right).WF :=
    ⟨Nat.zero_lt_succ 31, hr, hrw, fun h => by cases h⟩
  have hnode : (Expr.cmp .ule (.bin .lshr (.const 0xFFFFFFFF 32) right) left).WF := ⟨hshift, hl, hlw⟩
  have hs := Expr.Simplifies.cmp (BinKind.create_simplifies .lshr hshift rfl) (.refl left) hnode
  have hsimp := hs.trans (CmpKind.create_simplifies .ule (hs.wf hnode))
  refine ⟨hsimp.wf hnode, hsimp.width, fun σ => (hsimp.holds_iff hnode rfl σ).trans ?_⟩
  have hconst : (Expr.const 0xFFFFFFFF 32).eval σ 32 = 0xFFFFFFFF#32 := Expr.eval_constant _ σ
  have hbool : ∀ b : Bool, BitVec.ofBool b = 1#1 ↔ b = true := by decide
  rw [Expr.Holds, Expr.eval_cmp (w := 32) rfl, Expr.eval, hconst]
  refine (hbool _).trans ((limit_ule_iff _ _).trans ?_)
  simp only [mem_singleton, exists_eq_left, Reported, limit]

theorem OrExpr.create_checksFor {a b : Expr} {S T : ShlMap} (ha : ChecksFor a S) (hb : ChecksFor b T) :
    ChecksFor (create a b) (S ++ T) := by
  have hnode : (Expr.bin .or a b).WF := ⟨ha.wf, hb.wf, hb.width.trans ha.width.symm, fun h => by cases h⟩
  have hsimp := create_simplifies hnode
  refine ⟨hsimp.wf hnode, hsimp.width.trans ha.width, fun σ => (hsimp.holds_iff hnode ha.width σ).trans ?_⟩
  have hor : ∀ x y : BitVec 1, x ||| y = 1#1 ↔ x = 1#1 ∨ y = 1#1 := by decide
  rw [Expr.Holds, Expr.eval, BinKind.eval, hor]
  simp only [mem_append, or_and_right, exists_or]
  exact or_congr (ha.holds σ) (hb.holds σ)

/-- The operands of an entry. -/
structure Entry (s : Expr × Expr) : Prop where
  amount : s.1.WF
  operand : s.2.WF
  width : s.1.getWidth = s.2.getWidth

theorem shlCheck_eq (h : Entry s) : (s.1.getWidth = 32 → ∃ c, shlCheck s.1 s.2 = .ok c ∧ ChecksFor c [s]) ∧
    ∀ c, shlCheck s.1 s.2 = .ok c → s.1.getWidth = 32 := by
  constructor
  · intro hw
    have hl : s.2.getWidth = 32 := h.width ▸ hw
    exact ⟨_, if_pos ⟨hw, hl⟩, shlCheck_spec h.amount h.operand hw hl⟩
  · intro c hc
    unfold shlCheck at hc
    split at hc
    · grind
    · cases hc

/-- The loop returns if and only if every shift has 32 bits, and the check is for all entries. -/
theorem foldlM_addCheck : ∀ {rest S : ShlMap} {new : Expr}, (∀ s ∈ rest, Entry s) → ChecksFor new S →
    ((∀ s ∈ rest, s.1.getWidth = 32) → ∃ res, rest.foldlM addCheck new = .ok res ∧ ChecksFor res (S ++ rest)) ∧
    ∀ res, rest.foldlM addCheck new = .ok res → ∀ s ∈ rest, s.1.getWidth = 32
  | [], S, new, _, hnew => ⟨fun _ => ⟨new, rfl, by simpa using hnew⟩, fun _ _ s hs => nomatch hs⟩
  | s :: rest, S, new, h, hnew => by
    obtain ⟨hok, hwidth⟩ := shlCheck_eq (h s mem_cons_self)
    have htail : ∀ {S new}, ChecksFor new S → _ :=
      fun hnew => foldlM_addCheck (fun x hx => h x (mem_cons_of_mem s hx)) hnew
    constructor
    · intro hall
      obtain ⟨c, hc, hcheck⟩ := hok (hall s mem_cons_self)
      obtain ⟨res, hres, hchecks⟩ := (htail (OrExpr.create_checksFor hnew hcheck)).1
        fun x hx => hall x (mem_cons_of_mem s hx)
      refine ⟨res, ?_, by simpa using hchecks⟩
      rw [foldlM_cons, addCheck, hc]
      exact hres
    · intro res hres
      rw [foldlM_cons] at hres
      obtain ⟨new', hnew', hres⟩ := exists_of_bind_ok hres
      obtain ⟨c, hc, rfl⟩ := exists_of_map_ok hnew'
      have hs := hwidth c hc
      obtain ⟨c', hc', hcheck⟩ := hok hs
      rw [hc] at hc'
      obtain rfl := ok.inj hc'
      refine forall_mem_cons.2 ⟨hs, ?_⟩
      exact (htail (OrExpr.create_checksFor hnew hcheck)).2 res hres

variable {less : Expr → Expr → Bool} {e : Expr}

theorem entry_of_mem_parseExpr (he : e.WF) (hs : s ∈ parseExpr less e []) : Entry s := by
  obtain ⟨h1, h2, h3⟩ := he.shl (mem_of_lookup (mem_parseExpr.1 hs))
  exact ⟨h1, h2, h3⟩

/-- Without a shift that is met the expression itself is returned. Else the function returns if and only if the first
shift by each amount has 32 bits, and the check is for those. -/
theorem createCheckExpr_spec (he : e.WF) : (e.shlExprs = [] → createCheckExpr less e = .ok e) ∧ (e.shlExprs ≠ [] →
      ((∀ s ∈ parseExpr less e [], s.1.getWidth = 32) →
        ∃ res, createCheckExpr less e = .ok res ∧ ChecksFor res (parseExpr less e [])) ∧
      ∀ res, createCheckExpr less e = .ok res → ∀ s ∈ parseExpr less e [], s.1.getWidth = 32) := by
  unfold createCheckExpr
  constructor
  · intro hnil
    rw [parseExpr_eq, hnil]
    rfl
  · intro hne
    have hentry : ∀ s ∈ parseExpr less e [], Entry s := fun s hs => entry_of_mem_parseExpr he hs
    cases hm : parseExpr less e [] with
    | nil =>
      -- the first shift is in the map
      obtain ⟨⟨r, l⟩, rest, hcons⟩ := exists_cons_of_ne_nil hne
      have : (r, l) ∈ parseExpr less e [] := mem_parseExpr.2 (by rw [hcons]; simp)
      rw [hm] at this
      cases this
    | cons s rest =>
      obtain ⟨right, left⟩ := s
      rw [hm] at hentry
      obtain ⟨hok, hwidth⟩ := shlCheck_eq (hentry _ mem_cons_self)
      have hrest : ∀ s ∈ rest, Entry s := fun s hs => hentry s (mem_cons_of_mem _ hs)
      constructor
      · intro hall
        obtain ⟨c, hc, hcheck⟩ := hok (hall _ mem_cons_self)
        obtain ⟨res, hres, hchecks⟩ := (foldlM_addCheck hrest hcheck).1 fun x hx => hall x (mem_cons_of_mem _ hx)
        refine ⟨res, ?_, hchecks⟩
        dsimp only at hc ⊢
        rw [hc]
        exact hres
      · intro res hres
        obtain ⟨c, hc, hres⟩ := exists_of_bind_ok hres
        have hs := hwidth c hc
        obtain ⟨c', hc', hcheck⟩ := hok hs
        rw [hc] at hc'
        obtain rfl := ok.inj hc'
        exact forall_mem_cons.2 ⟨hs, (foldlM_addCheck hrest hcheck).2 res hres⟩

/-! ## When the check is right -/

/-- The expression without a left shift is returned as it is, and for another one the check is true exactly where a left
shift overflows. -/
def CheckRight [Options] (less : Expr → Expr → Bool) (e : Expr) : Prop :=
  ∃ res, createCheckExpr less e = .ok res ∧ (e.allShls = [] → res = e) ∧
    (e.allShls ≠ [] → res.getWidth = 1 ∧ ∀ σ, res.Holds σ ↔ ∃ s ∈ e.allShls, Overflows σ s)

/-- What the operands of the left shifts have to meet, the first shift by each amount being the one that is checked. -/
structure OperandsFit (e : Expr) (σ : Assignment) : Prop where
  /-- Where an operand that is checked is at the limit itself, a shift overflows. -/
  limit : ∀ r l, e.shlExprs.lookup r = some l → (l.eval σ 32).toNat = Klee.limit σ (r, l) → ∃ s ∈ e.allShls, Overflows σ s
  /-- Where a shift that is not checked overflows, an operand that is checked reaches its limit. -/
  unchecked : ∀ s ∈ e.allShls, e.shlExprs.lookup s.1 ≠ some s.2 → Overflows σ s →
    ∃ r l, e.shlExprs.lookup r = some l ∧ Klee.limit σ (r, l) ≤ (l.eval σ 32).toNat

theorem operandsFit_iff {σ : Assignment} (h32 : ∀ r l, e.shlExprs.lookup r = some l → l.getWidth = 32) : OperandsFit e σ ↔
    ((∃ r l, e.shlExprs.lookup r = some l ∧ Reported σ (r, l)) ↔ ∃ s ∈ e.allShls, Overflows σ s) := by
  constructor
  · intro h
    constructor
    · rintro ⟨r, l, hl, hr⟩
      rcases (reported_iff (h32 r l hl)).1 hr with ho | hlimit
      · exact ⟨(r, l), e.mem_allShls_of_mem_shlExprs (mem_of_lookup hl), ho⟩
      · exact h.limit r l hl hlimit
    · rintro ⟨s, hs, ho⟩
      by_cases hl : e.shlExprs.lookup s.1 = some s.2
      · exact ⟨s.1, s.2, hl, (reported_iff (h32 _ _ hl)).2 (.inl ho)⟩
      · exact h.unchecked s hs hl ho
  · intro h
    refine ⟨fun r l hl hlimit => h.1 ⟨r, l, hl, ?_⟩, fun s hs _ ho => h.2 ⟨s, hs, ho⟩⟩
    exact (reported_iff (h32 r l hl)).2 (.inr hlimit)

/-- There is no left shift, or the first ones by each amount have 32 bits and the operands fit. (If all left shifts are in
update lists, the expression must say itself where one overflows.) -/
theorem checkRight_iff [I : Options] (he : e.WF) (hw : e.getWidth = 1) : CheckRight less e ↔ e.allShls = [] ∨
      (e.shlExprs = [] ∧ ∀ σ, e.Holds σ ↔ ∃ s ∈ e.allShls, Overflows σ s) ∨
      (e.shlExprs ≠ [] ∧ (∀ r l, e.shlExprs.lookup r = some l → r.getWidth = 32) ∧ ∀ σ, OperandsFit e σ) := by
  rw [CheckRight, createCheckExpr_options I]
  obtain ⟨hnil, hcons⟩ : (_ → @createCheckExpr less ⟨false, true⟩ e = .ok e) ∧ _ := createCheckExpr_spec he
  have hsub : e.allShls = [] → e.shlExprs = [] := by
    intro h
    rw [eq_nil_iff_forall_not_mem] at h ⊢
    exact fun s hs => h s (Expr.mem_allShls_of_mem_shlExprs e hs)
  have hfirst : ∀ Q : Expr × Expr → Prop,
      (∃ s ∈ parseExpr less e [], Q s) ↔ ∃ r l, e.shlExprs.lookup r = some l ∧ Q (r, l) := by
    intro Q
    constructor
    · rintro ⟨⟨r, l⟩, hs, hQ⟩
      exact ⟨r, l, mem_parseExpr.1 hs, hQ⟩
    · rintro ⟨r, l, hs, hQ⟩
      exact ⟨(r, l), mem_parseExpr.2 hs, hQ⟩
  by_cases hall : e.allShls = []
  · exact ⟨fun _ => .inl hall, fun _ => ⟨e, hnil (hsub hall), fun _ => rfl, fun h => absurd hall h⟩⟩
  · by_cases hvis : e.shlExprs = []
    · -- every left shift is in an update list
      constructor
      · rintro ⟨res, hres, -, hright⟩
        rw [hnil hvis] at hres
        obtain rfl := ok.inj hres
        exact .inr (.inl ⟨hvis, (hright hall).2⟩)
      · rintro (h | ⟨-, h⟩ | ⟨h, -⟩)
        · exact absurd h hall
        · exact ⟨e, hnil hvis, fun _ => rfl, fun _ => ⟨hw, h⟩⟩
        · exact absurd hvis h
    · obtain ⟨hok, hwidth⟩ := hcons hvis
      have hfit := fun (h32 : ∀ r l, e.shlExprs.lookup r = some l → r.getWidth = 32) σ =>
        operandsFit_iff (σ := σ) fun r l hl => (he.shl (mem_of_lookup hl)).2.2 ▸ h32 r l hl
      constructor
      · rintro ⟨res, hres, -, hright⟩
        have h32 := hwidth res hres
        obtain ⟨res', hres', hchecks⟩ := hok h32
        rw [hres] at hres'
        obtain rfl := ok.inj hres'
        replace h32 : ∀ r l, e.shlExprs.lookup r = some l → r.getWidth = 32 := fun r l hl =>
          h32 (r, l) (mem_parseExpr.2 hl)
        refine .inr (.inr ⟨hvis, h32, fun σ => (hfit h32 σ).2 ?_⟩)
        rw [← hfirst, ← hchecks.holds σ]
        exact (hright hall).2 σ
      · rintro (h | ⟨h, -⟩ | ⟨-, h32, h⟩)
        · exact absurd h hall
        · exact absurd h hvis
        · obtain ⟨res, hres, hchecks⟩ := hok fun s hs => h32 s.1 s.2 (mem_parseExpr.1 hs)
          refine ⟨res, hres, fun h => absurd h hall, fun _ => ⟨hchecks.width, fun σ => ?_⟩⟩
          rw [hchecks.holds σ, hfirst]
          exact (hfit h32 σ).1 (h σ)

end Check

/-! ## Runs -/

/-- A symbolic byte as a number of 32 bits. -/
def byte32 (addr : Nat) : Expr := .zext (symbolicByte addr "x") 32

/-- The byte `a` shifted left by the constant `n`, compared with zero. -/
def shifted (a n : Nat) : Expr := .cmp .eq (.const 0 32) (.bin .shl (byte32 a) (.const n 32))

/-- Two bytes shifted left by the same constant, compared with each other. -/
def bothShifted (n : Nat) : Expr :=
  .cmp .ult (.bin .shl (byte32 0) (.const n 32)) (.bin .shl (byte32 1) (.const n 32))

/-- A byte shifted left at its own width. -/
def shiftedByte : Expr := .cmp .eq (.const 0 8) (.bin .shl (symbolicByte 0 "x") (.const 1 8))

/-- An order for the map. -/
def weightLess (a b : Expr) : Bool := a.weight < b.weight

theorem shifted_wf (a n : Nat) : (shifted a n).WF :=
  ⟨Nat.zero_lt_succ 31, ⟨⟨symbolicByte_ok trivial, show 8 ≤ 32 by decide⟩, Nat.zero_lt_succ 31, rfl,
    fun h => by cases h⟩, rfl⟩

theorem byte32_lt (σ : Assignment) (a : Nat) : ((byte32 a).eval σ 32).toNat < 256 := by
  have hv : (byte32 a).eval σ 32 = (σ (byteArray a "x") 0).setWidth 32 := rfl
  rw [hv, BitVec.toNat_setWidth]
  exact lt_of_le_of_lt (Nat.mod_le _ _) (σ (byteArray a "x") 0).isLt

/-- A byte does not reach the limit of a shift by 20. -/
theorem checkRight_shifted : CheckRight weightLess (shifted 0 20) := by
  have hfirst : ∀ {r l}, (shifted 0 20).shlExprs.lookup r = some l → (r, l) = (.const 20 32, byte32 0) :=
    fun hl => mem_singleton.1 (mem_of_lookup hl)
  refine (checkRight_iff (shifted_wf 0 20) rfl).2 (.inr (.inr ⟨cons_ne_nil _ _, fun r l hl => ?_, fun σ => ⟨?_, ?_⟩⟩))
  · obtain ⟨rfl, -⟩ := mk.inj (hfirst hl)
    rfl
  · intro r l hl hlimit
    obtain ⟨rfl, rfl⟩ := mk.inj (hfirst hl)
    have hconst : (Expr.const 20 32).eval σ 32 = 20#32 := Expr.eval_constant _ σ
    have hlt := byte32_lt σ 0
    rw [hlimit, limit, hconst] at hlt
    exact absurd hlt (by decide)
  · intro s hs hne
    obtain rfl := mem_singleton.1 (show s ∈ [(Expr.const 20 32, byte32 0)] from hs)
    exact absurd (List.lookup_cons_self ..) hne

/-- Three ways for the check to be wrong. An operand at the limit is reported though no bit is lost. Of two shifts by the
same amount one is not in the map, and its overflow is missed. At a width other than 32 the assertion fails. -/
theorem createCheckExpr_wrong :
    (∃ res, createCheckExpr weightLess (shifted 0 24) = .ok res ∧ res.Holds (fun _ _ => 255) ∧
      ¬ ∃ s ∈ (shifted 0 24).allShls, Overflows (fun _ _ => 255) s) ∧
    (∃ res, createCheckExpr weightLess (bothShifted 28) = .ok res ∧ ¬ res.Holds (fun a _ => a.addr * 255) ∧
      ∃ s ∈ (bothShifted 28).allShls, Overflows (fun a _ => a.addr * 255) s) ∧
    createCheckExpr weightLess shiftedByte = .error .assertFailed := by
  refine ⟨⟨_, rfl, by decide, ?_⟩, ⟨_, rfl, by decide, (.const 28 32, byte32 1), ?_, ?_⟩, rfl⟩
  · rintro ⟨s, hs, ho⟩
    obtain rfl := mem_singleton.1 (show s ∈ [(Expr.const 24 32, byte32 0)] from hs)
    exact absurd (loses_iff.1 ho) (by decide)
  · exact mem_cons_of_mem _ mem_cons_self
  · exact loses_iff.2 (by decide)

end S2E.Klee
