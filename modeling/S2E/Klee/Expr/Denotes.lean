import S2E.Klee.Expr.Create

/-!
# The value of what a `create` function builds

`Expr.Denotes σ e v` : under the assignment `σ` the expression `e` has the value `v`, and the width of `v`. One lemma for
each of the `create` functions that the memory model calls; the widths of the operands are those of their values.
-/

namespace S2E.Klee

variable [Options]

structure Expr.Denotes (σ : Assignment) (e : Expr) {w : Nat} (v : BitVec w) : Prop where
  inBounds : e.InBounds σ
  width : e.getWidth = w
  eval : e.eval σ w = v

variable {σ : Assignment} {e e' l r : Expr} {a b w : Nat}

theorem Expr.InBounds.denotes (h : e.InBounds σ) : e.Denotes σ (e.value σ) := ⟨h, rfl, rfl⟩

theorem Expr.denotes_const (σ : Assignment) (v : Nat) (h : 0 < w) : (const v w).Denotes σ (BitVec.ofNat w v) :=
  ⟨h, rfl, eval_constant _ σ⟩

theorem Expr.Simplifies.denotes {v : BitVec w} (hs : e.Simplifies e') (hd : e.Denotes σ v) : e'.Denotes σ v where
  inBounds := hs.ok _ hd.inBounds
  width := hs.width.trans hd.width
  eval := (hs.eval_at hd.inBounds hd.width).trans hd.eval

variable {x y : BitVec w}

/-- A binary node that is no division: its operands have one width, and nothing else is asked of them. -/
theorem BinKind.denotes {k : BinKind} (hk : k.isDiv = false) (hl : l.Denotes σ x)
    (hr : r.Denotes σ y) (hs : (Expr.bin k l r).WF → (Expr.bin k l r).Simplifies e) : e.Denotes σ (k.eval x y) := by
  have hok : (Expr.bin k l r).InBounds σ :=
    ⟨hl.inBounds, hr.inBounds, hr.width.trans hl.width.symm, fun h => by simp [hk] at h⟩
  refine (hs hok.wf).denotes ⟨hok, hl.width, ?_⟩
  rw [Expr.eval, hl.eval, hr.eval]

section

variable (hl : l.Denotes σ x) (hr : r.Denotes σ y)

include hl hr

theorem AddExpr.create_denotes : (create l r).Denotes σ (x + y) :=
  BinKind.denotes rfl hl hr (create_simplifies l r)

theorem SubExpr.create_denotes : (create l r).Denotes σ (x - y) :=
  BinKind.denotes rfl hl hr (create_simplifies l r)

theorem AndExpr.create_denotes : (create l r).Denotes σ (x &&& y) :=
  BinKind.denotes rfl hl hr create_simplifies

theorem OrExpr.create_denotes : (create l r).Denotes σ (x ||| y) :=
  BinKind.denotes rfl hl hr create_simplifies

end

theorem SelectExpr.create_denotes {c : Expr} {b : BitVec 1} (hc : c.Denotes σ b) (hl : l.Denotes σ x)
    (hr : r.Denotes σ y) : (create c l r).Denotes σ (if b = 1#1 then x else y) := by
  have hok : (Expr.select c l r).InBounds σ :=
    ⟨hc.inBounds, hl.inBounds, hr.inBounds, hc.width, hr.width.trans hl.width.symm⟩
  refine (create_simplifies hok.wf).denotes ⟨hok, hl.width, ?_⟩
  rw [Expr.eval, hc.eval, hl.eval, hr.eval]

theorem ConcatExpr.create_denotes {x : BitVec a} {y : BitVec b} (hl : l.Denotes σ x) (hr : r.Denotes σ y) :
    (create l r).Denotes σ (x ++ y) := by
  have hok : (Expr.concat l r).InBounds σ := ⟨hl.inBounds, hr.inBounds⟩
  refine (create_simplifies hok.wf).denotes ⟨hok, ?_, ?_⟩
  · rw [Expr.getWidth, hl.width, hr.width]
  · rw [Expr.eval_concat hl.width hr.width, hl.eval, hr.eval, BitVec.setWidth_eq]

theorem ExtractExpr.create_denotes (he : e.Denotes σ x) (off k : Nat) (hk : 0 < k) (hle : off + k ≤ w) :
    (create e off k).Denotes σ (x.extractLsb' off k) := by
  have hok : (Expr.extract e off k).InBounds σ := ⟨he.inBounds, hk, by rw [he.width]; exact hle⟩
  refine (create_simplifies hok.wf).denotes ⟨hok, rfl, ?_⟩
  rw [Expr.eval_extract he.width, he.eval]

theorem ZExtExpr.create_denotes (he : e.Denotes σ x) {k : Nat} (hk : 0 < k) :
    (create e k).Denotes σ (x.setWidth k) := by
  by_cases hlt : k < e.getWidth
  · obtain ⟨hwidth, heval⟩ := ExtractExpr.create_truncate he.inBounds.wf hk hlt
    rw [create, if_pos hlt]
    refine ⟨(heval σ he.inBounds).1, hwidth, (heval σ he.inBounds).2.trans ?_⟩
    obtain rfl := he.width
    rw [he.eval]
  · have hok : (Expr.zext e k).InBounds σ := ⟨he.inBounds, by omega⟩
    refine (create_simplifies hok.wf).denotes ⟨hok, rfl, ?_⟩
    rw [Expr.eval_zext he.width, he.eval]

theorem ReadExpr.create_denotes {root : Array} {head : Updates} {index : Expr} {i : BitVec 32} (hh : head.InBounds σ)
    (hi : index.Denotes σ i) (hlt : i.toNat < root.size) :
    (create root head index).Denotes σ (head.eval σ root i) := by
  have hok : (Expr.read root head index).InBounds σ :=
    ⟨hh, hi.inBounds, hi.width, fun _ _ => by rw [hi.eval]; exact hlt⟩
  refine (create_simplifies hok.wf).denotes ⟨hok, rfl, ?_⟩
  simp only [Expr.eval, BitVec.setWidth_eq]
  rw [hi.eval]

end S2E.Klee
