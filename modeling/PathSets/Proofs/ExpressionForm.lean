import PathSets.Expression.Substitution
import PathSets.Proofs.ExpressionText
import PathSets.Proofs.PatternForm

/-!
# What the operations and the reader give

The operations keep expressions well formed (`Expression.closed_wellFormed`), and so
substitution gives well-formed expressions too.

Each operation adds at most one level to its higher operand, and a union adds none to an
operand that is a union of its kind (`Expression.height_combine_le`).  So what a phrase
stands for has no more levels than the phrase (`Expression.wellFormed_of_derives`), and an
expression that has been read no more than its text may have
(`Expression.wellFormed_of_parse`).
-/

namespace PathSets

namespace Tree

variable {op : Operator} {t left right : Tree}

/-- The operands of both sides stand on one level. -/
theorem height_join (hunion : op.isUnion = true) (left right : Tree) :
    (join op left right).height =
        max (left.height - left.shared op) (right.height - right.shared op) + 1 ∧
      (join op left right).shared op = 1 := by
  induction right with
  | leaf l => exact ⟨rfl, by simp [join, shared, isJoinedBy, hunion]⟩
  | complement operand _ => exact ⟨rfl, by simp [join, shared, isJoinedBy, hunion]⟩
  | binary o l r ih _ =>
    rw [join]
    split
    · next heq =>
      subst heq
      refine ⟨?_, by rw [shared_binary, if_pos hunion]⟩
      rw [height, ih.1, ih.2, shared_binary, if_pos hunion, height, Nat.add_sub_cancel,
        Nat.add_sub_cancel, Nat.max_assoc]
    · exact ⟨rfl, by rw [shared_binary, if_pos hunion]⟩

end Tree

theorem Pattern.wellFormed_everything : Pattern.everything.WellFormed where
  base := Path.wellFormed_root
  notEmpty := rfl
  property := nofun
  components _ := .stretch rfl (.done rfl)

namespace Expression

variable {op : Operator} {e left right : Expression}

/-! ## Operations -/

theorem wellFormed_iff : e.WellFormed ↔ e.Canonical ∧ ∀ l ∈ e.leaves, l.WellFormed := by
  cases e with
  | nothing => simp [WellFormed, Canonical, leaves]
  | of t => exact ⟨fun ht => ⟨ht.canonical, ht.leaves⟩, fun ht => ⟨ht.1, ht.2⟩⟩

theorem WellFormed.leaf (he : e.WellFormed) {l : Leaf} (hl : l ∈ e.leaves) : l.WellFormed :=
  (wellFormed_iff.mp he).2 l hl

theorem wellFormed_leaf {l : Leaf} (hl : l.WellFormed) : WellFormed (of (.leaf l)) :=
  ⟨trivial, fun l' hl' => by rwa [List.mem_singleton.mp hl']⟩

/-- The operations keep expressions well formed. -/
theorem closed_wellFormed : Closed WellFormed := by
  have hiff : WellFormed = fun e => e.Canonical ∧ ∀ l ∈ e.leaves, l.WellFormed :=
    funext fun e => propext wellFormed_iff
  rw [hiff]
  exact closed_canonical.and (closed_leaves (A := Leaf.WellFormed) Pattern.wellFormed_everything)

theorem WellFormed.composeOver {weaker : Expression} (he : e.WellFormed)
    (hweaker : weaker.WellFormed) : (e.composeOver weaker).WellFormed :=
  closed_wellFormed.composeOver (fun _ hl => wellFormed_leaf (he.leaf hl)) hweaker

theorem WellFormed.resolve {σ : Type} {ask : Reference → StateM σ Expression}
    (hask : ∀ r s, (ask r s).1.WellFormed) (he : e.WellFormed) (times : Nat) (s : σ) :
    (e.resolve ask times s).1.WellFormed :=
  closed_wellFormed.resolve (fun _ he _ hl => wellFormed_leaf (he.leaf hl)) hask he times s

/-! ## Levels -/

/-- The number of levels that count below a union of a kind: an operand that is such a
union itself stands on its level. -/
def heightBelow (op : Operator) : Expression → Nat
  | nothing => 0
  | of t => t.height - t.shared op

theorem heightBelow_le (op : Operator) (e : Expression) : e.heightBelow op ≤ e.height := by
  cases e with
  | nothing => exact Nat.le_refl 0
  | of t => exact Nat.sub_le t.height (t.shared op)

theorem height_le (op : Operator) (e : Expression) : e.height ≤ e.heightBelow op + 1 := by
  cases e with
  | nothing => exact Nat.zero_le _
  | of t =>
    have hle := t.shared_le op
    simp only [height, heightBelow]
    omega

theorem heightBelow_of_not_isUnion (h : op.isUnion = false) (e : Expression) :
    e.heightBelow op = e.height := by
  cases e with
  | nothing => rfl
  | of t => simp [heightBelow, height, Tree.shared, h]

theorem height_complement_le (e : Expression) : e.complement.height ≤ e.height + 1 := by
  cases e with
  | nothing => exact Nat.zero_le _
  | of t =>
    obtain ⟨operand, rfl, heq⟩ | ⟨-, heq⟩ | ⟨-, -, heq⟩ := complement_cases t <;> rw [heq]
    · simp only [height, Tree.height]
      omega
    · exact Nat.zero_le _
    · exact Nat.le_refl _

/-- A union adds one level, and none to what it counts below itself. -/
theorem height_unite_le (op : Operator) (hunion : op.isUnion = true)
    (left right : Expression) :
    (unite op left right).height ≤ max (left.heightBelow op) right.height + 1 ∧
      (unite op left right).heightBelow op ≤ max (left.heightBelow op) right.height := by
  have hleft := height_le op left
  have hright := heightBelow_le op right
  cases left with
  | nothing =>
    have hunite : unite op nothing right = right := by cases right <;> rfl
    rw [hunite]
    omega
  | of l =>
    cases right with
    | nothing =>
      have hunite : unite op (of l) nothing = of l := rfl
      rw [hunite]
      omega
    | of r =>
      obtain ⟨hheight, hshared⟩ := Tree.height_join hunion l r
      simp only [unite, height, heightBelow, hheight, hshared] at hright ⊢
      omega

/-- No operand of an intersection or difference is on its level. -/
theorem height_binary (h : op.isUnion = false) (left right : Tree) :
    (of (.binary op left right)).height = max (of left).height (of right).height + 1 := by
  simp [height, Tree.height, Tree.shared, h]

theorem height_intersect_le (left right : Expression) :
    (intersect left right).height ≤ max left.height right.height + 1 := by
  cases left with
  | nothing => exact Nat.zero_le _
  | of l =>
    cases right with
    | nothing => exact Nat.zero_le _
    | of r =>
      obtain ⟨-, heq⟩ | ⟨-, heq⟩ | ⟨-, -, heq⟩ := intersect_cases l r <;> rw [heq]
      · omega
      · omega
      · exact Nat.le_of_eq (height_binary rfl l r)

theorem height_subtract_le (left right : Expression) :
    (subtract left right).height ≤ max left.height right.height + 1 := by
  cases left with
  | nothing => exact Nat.zero_le _
  | of l =>
    cases right with
    | nothing =>
      rw [subtract]
      omega
    | of r =>
      have hcomplement := height_complement_le (of r)
      obtain ⟨-, heq⟩ | ⟨-, heq⟩ | ⟨-, -, heq⟩ := subtract_cases l r <;> rw [heq]
      · exact Nat.zero_le _
      · omega
      · exact Nat.le_of_eq (height_binary rfl l r)

/-- An operation adds one level to its higher operand.  A union adds none to what it
counts below itself. -/
theorem height_combine_le (op : Operator) (left right : Expression) :
    (combine op left right).height ≤ max (left.heightBelow op) right.height + 1 ∧
      (op.isUnion = true →
        (combine op left right).heightBelow op ≤ max (left.heightBelow op) right.height) := by
  cases op with
  | juxtaposition =>
    obtain ⟨hheight, hbelow⟩ := height_unite_le .juxtaposition rfl left right
    exact ⟨hheight, fun _ => hbelow⟩
  | union =>
    obtain ⟨hheight, hbelow⟩ := height_unite_le .union rfl left right
    exact ⟨hheight, fun _ => hbelow⟩
  | intersection =>
    rw [heightBelow_of_not_isUnion rfl]
    exact ⟨height_intersect_le left right, nofun⟩
  | difference =>
    rw [heightBelow_of_not_isUnion rfl]
    exact ⟨height_subtract_le left right, nofun⟩

/-- What counts below a union of the result: one level less if the result is such a union. -/
theorem heightBelow_combine_le (op other : Operator) (left right : Expression) :
    (combine op left right).heightBelow other ≤
      max (left.heightBelow op) right.height + 1 -
        (if other.isUnion && op == other then 1 else 0) := by
  obtain ⟨hle, hunion⟩ := height_combine_le op left right
  by_cases hsame : (other.isUnion && op == other) = true
  · rw [Bool.and_eq_true, beq_iff_eq] at hsame
    obtain ⟨hkind, rfl⟩ := hsame
    have hbelow := hunion hkind
    simp only [hkind, beq_self_eq_true, Bool.and_self, if_true]
    omega
  · rw [if_neg hsame]
    exact Nat.le_trans (heightBelow_le other _) hle

/-! ## Reading -/

theorem wellFormed_of_readReference {text : List Char} {r : Reference}
    (h : Reference.read text = .ok r) : r.WellFormed := by
  rw [Reference.read] at h
  split at h
  · obtain rfl := Except.ok.inj h
    exact Reference.wellFormed_weaker
  split at h
  · exact absurd h (by simp)
  split at h
  · exact absurd h (by simp)
  next path hpath =>
  split at h
  · exact absurd h (by simp)
  next hproperty =>
  split at h
  · next hname =>
    obtain rfl := Except.ok.inj h
    exact ⟨Path.wellFormed_of_read hpath, by simpa using hproperty, by rwa [String.toList_ofList]⟩
  · exact absurd h (by simp)

theorem wellFormed_of_readLeaf {token : Token} {l : Leaf} (h : readLeaf token = .ok l) :
    l.WellFormed := by
  rw [readLeaf.eq_def] at h
  split at h
  · split at h
    · next p hread =>
      obtain rfl := Except.ok.inj h
      exact Pattern.wellFormed_of_read hread
    · exact absurd h (by simp)
  · split at h
    · next r hread =>
      obtain rfl := Except.ok.inj h
      exact wellFormed_of_readReference hread
    · exact absurd h (by simp)

/-- A phrase stands for a well-formed expression that has no more levels than the phrase. -/
theorem wellFormed_of_derives {nonterminal : Nonterminal} {tokens : List Token} {p : Phrase}
    (h : Derives nonterminal tokens p) :
    p.value.WellFormed ∧ p.value.height ≤ p.depth ∧
      ∀ op, p.value.heightBelow op ≤ p.depth - p.shared op := by
  induction h with
  | leaf _ hread =>
    have hvalue := wellFormed_leaf (wellFormed_of_readLeaf hread)
    exact ⟨hvalue, Nat.le_refl 0, fun op => heightBelow_le op _⟩
  | parens _ _ _ ih =>
    obtain ⟨hvalue, hheight, -⟩ := ih
    exact ⟨hvalue, hheight, fun op => Nat.le_trans (heightBelow_le op _) hheight⟩
  | @signed signs tokens p _ h ih =>
    obtain ⟨hvalue, hheight, -⟩ := ih
    have hsigned : (Phrase.signed signs.length p).value.WellFormed ∧
        (Phrase.signed signs.length p).value.height ≤ p.depth + signs.length % 2 := by
      rw [Phrase.value, (h.orderly.repeat_complement signs.length).2]
      split
      · have hle := height_complement_le p.value
        exact ⟨closed_wellFormed.complement hvalue, by omega⟩
      · exact ⟨hvalue, Nat.le_trans hheight (Nat.le_add_right _ _)⟩
    exact ⟨hsigned.1, hsigned.2, fun op => Nat.le_trans (heightBelow_le op _) hsigned.2⟩
  | first _ ih => exact ih
  | @link op left sign right p q _ _ _ ihLeft ihRight =>
    obtain ⟨hleft, -, hbelow⟩ := ihLeft
    obtain ⟨hright, hheight, -⟩ := ihRight
    have hop := hbelow op
    have hle := (height_combine_le op p.value q.value).1
    refine ⟨closed_wellFormed.combine op hleft hright, ?_, fun other => ?_⟩
    · show (combine op p.value q.value).height ≤ max (p.depth - p.shared op) q.depth + 1
      omega
    · have hother := heightBelow_combine_le op other p.value q.value
      show (combine op p.value q.value).heightBelow other ≤
        max (p.depth - p.shared op) q.depth + 1 - (if other.isUnion && op == other then 1 else 0)
      omega

/-- An expression that has been read is well formed and has no more levels than its text
may have. -/
theorem wellFormed_of_parse {text : String} (h : parse text = .ok e) :
    e.WellFormed ∧ e.height ≤ maxDepth := by
  rw [parse] at h
  split at h
  · exact absurd h (by simp)
  · rcases readTokens_eq_ok_iff.mp (mapError_eq_ok.mp h) with ⟨-, rfl⟩ | ⟨p, hp, -, hdepth, rfl⟩
    · exact ⟨trivial, Nat.zero_le maxDepth⟩
    · obtain ⟨hvalue, hheight, -⟩ := wellFormed_of_derives hp
      exact ⟨hvalue, Nat.le_trans hheight hdepth⟩

end Expression

end PathSets
