import L24.CodeGen
import L24.Frontend.Builder

/-! Integer literals, from their text to the constant that is generated: the AST node squeezes them through an `int`. -/

namespace L24

/-- What an integer literal should come to: its value as a constant if it fits into 64 bits, a reported error
    otherwise. -/
structure LiteralExact (text : String) : Prop where
  value : decimal text < 0x8000000000000000 → ∃ node, visitNumber text = .ok node ∧
    codeGenNumber node = pure (.const (.int (.ofNat 64 (decimal text))))
  reported : 0x8000000000000000 ≤ decimal text → ∃ msg, visitNumber text = .error (.buildError msg)

theorem visitNumber_ok {text : String} (h : decimal text < 0x8000000000000000) :
    visitNumber text = .ok (.ofLongLong (.ofNat 64 (decimal text))) := by
  rw [visitNumber, stoll, if_pos h]
  rfl

theorem visitNumber_error {text : String} (h : 0x8000000000000000 ≤ decimal text) :
    visitNumber text = .error .outOfRange := by
  rw [visitNumber, stoll, if_neg (Nat.not_lt_of_le h)]
  rfl

/-- A number survives the way through an `int` exactly if it is one. -/
theorem ofLongLong_eq_iff {n : Nat} (h : n < 0x8000000000000000) :
    (NumberNode.ofLongLong (.ofNat 64 n)).intLiteral = .ofNat 64 n ↔ n < 0x80000000 := by
  have hleft : (NumberNode.ofLongLong (.ofNat 64 n)).intLiteral.toInt = Int.bmod n 0x100000000 := by
    have hn : (BitVec.ofNat 64 n).toNat = n := by
      rw [BitVec.toNat_ofNat]
      exact Nat.mod_eq_of_lt (by omega)
    rw [NumberNode.ofLongLong, BitVec.toInt_signExtend_of_le (by decide), BitVec.toInt_setWidth, hn]
  have hright : (BitVec.ofNat 64 n).toInt = n := by
    rw [BitVec.toInt_ofNat', Int.bmod_def]
    omega
  rw [← BitVec.toInt_inj, hleft, hright, Int.bmod_def]
  omega

theorem codeGenNumber_eq_iff {node : NumberNode} {v : BitVec 64} :
    codeGenNumber node = pure (.const (.int v)) ↔ node.intLiteral = v := by
  constructor
  · intro h
    have hrun : (pure (.const (.int node.intLiteral)) : CG Ir.Value) {} = (pure (.const (.int v)) : CG Ir.Value) {} :=
      congrFun h {}
    injection hrun with hv
    injection hv with hc
    injection hc
  · rintro rfl
    rfl

theorem LiteralExact.lt {text : String} (h : LiteralExact text) : decimal text < 0x80000000 := by
  by_contra hn
  rcases Nat.lt_or_ge (decimal text) 0x8000000000000000 with hlt | hge
  · obtain ⟨node, hnode, hgen⟩ := h.value hlt
    rw [visitNumber_ok hlt] at hnode
    obtain rfl := Except.ok.inj hnode
    exact hn ((ofLongLong_eq_iff hlt).mp (codeGenNumber_eq_iff.mp hgen))
  · obtain ⟨msg, hmsg⟩ := h.reported hge
    rw [visitNumber_error hge] at hmsg
    cases hmsg

/-- The literals that come to what they should are those that fit into an `int`. -/
theorem literalExact_iff (text : String) : LiteralExact text ↔ decimal text < 0x80000000 := by
  refine ⟨LiteralExact.lt, fun h => ⟨fun hlt => ⟨_, visitNumber_ok hlt, ?_⟩, fun hge => by omega⟩⟩
  exact codeGenNumber_eq_iff.mpr ((ofLongLong_eq_iff hlt).mpr h)

/-- 2^31 becomes -2^31. -/
theorem literal_truncated : TokenType.IntLiteral.matcher "2147483648".toList = some "2147483648".toList.length ∧
    ¬ LiteralExact "2147483648" := by
  refine ⟨by decide, fun h => ?_⟩
  have hlt := h.lt
  have hval : decimal "2147483648" = 2147483648 := by decide
  omega

end L24
