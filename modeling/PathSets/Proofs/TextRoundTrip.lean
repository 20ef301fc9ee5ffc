import PathSets.Proofs.ExpressionForm

/-!
# The text of an expression spells it

`Expression.Built` are the expressions that parsing, the constructors, the algebra and
substitution give, in any order and any number of times.  All of them are well formed
(`Expression.Built.wellFormed`), so those with no more than `maxDepth` levels are read
back from their text.  What has been parsed has no more levels than that, so its text
always spells it.
-/

namespace PathSets.Expression

/-- The expressions that can be built.  A reference has no path or one that has been
parsed and is no property.  What stands in the place of a reference is built too, and the
callback that answers it may keep a state. -/
inductive Built : Expression → Prop
  | parse {text : String} {e : Expression} (h : parse text = .ok e) : Built e
  | nothing : Built nothing
  | everything : Built everything
  | weaker : Built (ofReference .weaker)
  | reference {r : Reference}
      (hpath : r.path = .empty ∨
        (∃ text, Path.parse text = .ok r.path) ∧ r.path.isProperty = false)
      (hname : isIdentifier r.name.toList = true) : Built (ofReference r)
  | pattern {text : String} {p : Pattern} (h : Pattern.parse text = .ok p) : Built (ofPattern p)
  | complement {e : Expression} (he : Built e) : Built e.complement
  | combine {left right : Expression} (op : Operator) (hleft : Built left)
      (hright : Built right) : Built (combine op left right)
  | composeOver {e weaker : Expression} (he : Built e) (hweaker : Built weaker) :
      Built (e.composeOver weaker)
  | resolve {σ : Type} {ask : Reference → StateM σ Expression} {e : Expression}
      (hask : ∀ r s, Built (ask r s).1) (he : Built e) (times : Nat) (s : σ) :
      Built (e.resolve ask times s).1

/-- Everything that can be built is well formed. -/
theorem Built.wellFormed {e : Expression} (h : e.Built) : e.WellFormed := by
  induction h with
  | parse h => exact (wellFormed_of_parse h).1
  | nothing => trivial
  | everything => exact wellFormed_leaf Pattern.wellFormed_everything
  | weaker => exact wellFormed_leaf Reference.wellFormed_weaker
  | @reference r hpath hname =>
    have hr : r.WellFormed := by
      rcases hpath with hempty | ⟨⟨text, hparse⟩, hproperty⟩
      · exact ⟨hempty ▸ Path.wellFormed_empty, by rw [hempty]; rfl, hname⟩
      · exact ⟨Path.wellFormed_of_parse hparse, hproperty, hname⟩
    exact wellFormed_leaf hr
  | pattern h =>
    rw [ofPattern]
    split
    · trivial
    · exact wellFormed_leaf (Pattern.wellFormed_of_parse h)
  | complement _ ih => exact closed_wellFormed.complement ih
  | combine op _ _ ihLeft ihRight => exact closed_wellFormed.combine op ihLeft ihRight
  | composeOver _ _ ih ihWeaker => exact ih.composeOver ihWeaker
  | resolve _ _ times s ihAsk ih => exact WellFormed.resolve ihAsk ih times s

/-- The text of an expression with no more than `maxDepth` levels is read as the
expression, whatever it was built from, and so is the text of every expression that has
been parsed. -/
theorem parse_text_of_built :
    (∀ e : Expression, e.Built → e.height ≤ maxDepth → Expression.parse e.text = .ok e) ∧
      ∀ (text : String) (e : Expression), Expression.parse text = .ok e →
        Expression.parse e.text = .ok e := by
  refine ⟨fun e he hheight => parse_text he.wellFormed hheight, fun text e h => ?_⟩
  obtain ⟨he, hheight⟩ := wellFormed_of_parse h
  exact parse_text he hheight

/-- A complement of a union is written with parentheses, and the union alone without
them, whatever it was read from. -/
theorem parse_text_of_built_complement :
    let e := Expression.combine .union (ofReference .weaker) (ofReference (.named "b"))
    (e.complement.Built ∧ e.complement.height ≤ maxDepth ∧ e.complement.text = "~(%_ + %:b)" ∧
        Expression.parse e.complement.text = .ok e.complement) ∧
      Expression.parse " (%_|~~%:b)" = .ok e ∧ e.text = "%_ + %:b" ∧
        Expression.parse e.text = .ok e := by
  intro e
  have hbuilt : e.complement.Built :=
    .complement (.combine .union .weaker (.reference (Or.inl rfl) (by decide)))
  have hheight : e.complement.height ≤ maxDepth := by decide
  have hparse : Expression.parse " (%_|~~%:b)" = .ok e := by decide +kernel
  refine ⟨⟨hbuilt, hheight, by decide +kernel, ?_⟩, hparse, by decide +kernel, ?_⟩
  · exact parse_text_of_built.1 e.complement hbuilt hheight
  · exact parse_text_of_built.2 " (%_|~~%:b)" e hparse

end PathSets.Expression
