import Formula.Expr.Parser
import Formula.Proofs.Expr.Grammar
import Formula.Proofs.Graph.Growth

/-!
# The parser accepts its grammar

What the parser reads has a derivation, with fewer levels than were left (`sound_level`), and what
has such a derivation is read (`isRead_of_leads`). As tokens have one derivation at most, the
formula that is read stands for its tree.
-/

namespace Formula

open Grammar Token

namespace Grammar

abbrev kinds (ts : List Token) : List Kind := ts.map Token.kind

/-- The derivation is one of the tokens before `rest`, and fits into `n` levels. -/
structure Derivation.Explains {ph : Phrase} (D : Derivation ph) (n : Nat) (ts rest : List Token) :
    Prop where
  yield : kinds ts = D.yield ++ kinds rest
  nesting : D.nesting < n
  names : NamesKnown (kinds rest) → NamesKnown (kinds ts)

def Precedence.ops : Precedence → Kind → Option BinOp
  | sum => Expr.additive
  | product => Expr.multiplicative

theorem Op.ops_kind {p : Precedence} (o : Op p) : p.ops o.kind = some o.binOp := by
  cases o <;> rfl

theorem Precedence.exists_op {p : Precedence} {k : Kind} {op : BinOp} (h : p.ops k = some op) :
    ∃ o : Op p, o.kind = k ∧ o.binOp = op := by
  cases p with
  | sum =>
      cases k with
      | plus => exact ⟨.plus, rfl, Option.some.inj h⟩
      | minus => exact ⟨.minus, rfl, Option.some.inj h⟩
      | _ => cases h
  | product =>
      cases k with
      | star => exact ⟨.star, rfl, Option.some.inj h⟩
      | slash => exact ⟨.slash, rfl, Option.some.inj h⟩
      | _ => cases h

theorem eq_of_ofName? {name : String} {v : Var} (h : Var.ofName? name = some v) :
    (name = "x" ∨ name = "y") ∧ v = if name = "x" then .x else .y := by
  rw [Var.ofName?.eq_def] at h
  split at h
  · cases h
    exact ⟨.inl rfl, rfl⟩
  · cases h
    exact ⟨.inr rfl, rfl⟩
  · cases h

theorem ofName?_of_known {name : String} (h : name = "x" ∨ name = "y") :
    Var.ofName? name = some (if name = "x" then .x else .y) := by
  rcases h with rfl | rfl <;> rfl

end Grammar

namespace Expr

variable {x : Extent} {inner : Level} {n : Nat} {p : Precedence}

/-- What the parser reads with `n` levels left has a derivation by the rule. -/
def Sound (P : Parser) (r : Rule) (n : Nat) : Prop :=
  ∀ ts e rest, P ts = .ok (e, rest) →
    ∃ D : Derivation (.whole r), D.Explains n ts rest ∧ e.tree = D.tree

theorem exists_of_enclosed {f : Expr → Expr} {ts rest : List Token} {e : Expr}
    (h : (do
      let (e, ts) ← inner.formula ts
      let ts ← closed x ts
      return (f e, ts)) = .ok (e, rest)) :
    ∃ e' column, inner.formula ts = .ok (e', ⟨.rparen, column⟩ :: rest) ∧ e = f e' := by
  cases hinner : inner.formula ts with
  | error err =>
      rw [hinner] at h
      cases h
  | ok read =>
      obtain ⟨e', ts'⟩ := read
      rw [hinner] at h
      simp only [bind, Except.bind, closed.eq_def x ts'] at h
      split at h
      · cases h
      · next hclosed =>
          split at hclosed
          · cases hclosed
            cases h
            exact ⟨e', _, rfl, rfl⟩
          · cases hclosed

theorem sound_primary (hformula : Sound inner.formula .formula n) :
    Sound (primary x inner) .primary (n + 1) := by
  intro ts e rest h
  rw [primary.eq_def] at h
  split at h
  · next v c ts =>
      cases h
      exact ⟨.number v, ⟨rfl, by simp, fun h ↦ h.cons (by simp)⟩, rfl⟩
  · next name c c' ts =>
      obtain ⟨arg, c'', hread, rfl⟩ := exists_of_enclosed h
      obtain ⟨D, hD, htree⟩ := hformula _ _ _ hread
      refine ⟨.call name D, ⟨by simp [hD.yield], ?_, fun h ↦ ?_⟩, by simp [tree, htree]⟩
      · simpa using hD.nesting
      · have hclose : NamesKnown (.rparen :: kinds rest) := h.cons (by simp)
        exact namesKnown_cons.2 ⟨fun _ _ ↦ .inl rfl, (hD.names hclose).cons (by simp)⟩
  · next name c ts hnot =>
      split at h
      · next v hname =>
          cases h
          obtain ⟨hknown, rfl⟩ := eq_of_ofName? hname
          refine ⟨.bare name, ⟨rfl, by simp, fun h ↦ namesKnown_cons.2 ⟨?_, h⟩⟩, rfl⟩
          rintro _ ⟨⟩
          exact .inr hknown
      · cases h
  · next c ts =>
      obtain ⟨e', c', hread, rfl⟩ := exists_of_enclosed (f := id) h
      obtain ⟨D, hD, htree⟩ := hformula _ _ _ hread
      refine ⟨.group D, ⟨by simp [hD.yield], ?_, fun h ↦ ?_⟩, by simp [htree]⟩
      · simpa using hD.nesting
      · have hclose : NamesKnown (.rparen :: kinds rest) := h.cons (by simp)
        exact (hD.names hclose).cons (by simp)
  · cases h

theorem sound_signed (hformula : Sound inner.formula .formula n)
    (hoperand : Sound inner.operand .operand n) : Sound (signed x inner) .operand (n + 1) := by
  intro ts e rest h
  rw [signed.eq_def] at h
  split at h
  · next c v c' ts =>
      cases h
      refine ⟨.minus (.plain (.number v)), ⟨rfl, by simp [number?], fun h ↦ ?_⟩, rfl⟩
      exact (h.cons (by simp)).cons (by simp)
  · next c ts hnot =>
      cases hread : inner.operand ts with
      | error err =>
          rw [hread] at h
          cases h
      | ok read =>
          obtain ⟨e', rest'⟩ := read
          rw [hread] at h
          cases h
          obtain ⟨D, hD, htree⟩ := hoperand _ _ _ hread
          have hnumber : number? D.yield = none := by
            cases hv : number? D.yield with
            | none => rfl
            | some v =>
                obtain rfl := D.eq_number_of_number? hv
                obtain ⟨⟨k, c'⟩, ts', rfl, rfl, -⟩ := List.map_eq_cons_iff.1 hD.yield
                exact (hnot v c' ts' rfl).elim
          refine ⟨.minus D, ⟨by simp [hD.yield], ?_, fun h ↦ ?_⟩, ?_⟩
          · simpa [hnumber] using hD.nesting
          · exact (hD.names h).cons (by simp)
          · simp [tree, hnumber, htree]
  · obtain ⟨D, hD, htree⟩ := sound_primary hformula _ _ _ h
    exact ⟨.plain D, ⟨hD.yield, hD.nesting, hD.names⟩, htree⟩

theorem sound_chainFrom {part : Parser} (hpart : Sound part p.part (n + 1)) {rounds : Nat}
    {left e : Expr} {ts rest : List Token}
    (h : chainFrom p.ops part rounds left ts = .ok (e, rest)) :
    ∃ D : Derivation (.tail p), D.Explains (n + 1) ts rest ∧ e.tree = D.tree left.tree := by
  have hdone : ∀ (left : Expr) ts, ∃ D : Derivation (.tail p),
      D.Explains (n + 1) ts ts ∧ left.tree = D.tree left.tree :=
    fun left ts ↦ ⟨.done, ⟨rfl, by simp, id⟩, rfl⟩
  -- Each round puts an operator and a part in front of the tail of the rounds behind it.
  induction rounds generalizing left ts with
  | zero =>
      cases h
      exact hdone _ _
  | succ rounds ih =>
      cases ts with
      | nil =>
          cases h
          exact hdone _ _
      | cons t ts =>
          rw [chainFrom] at h
          split at h
          · cases h
            exact hdone _ _
          · next op hop =>
              obtain ⟨o, hkind, rfl⟩ := Precedence.exists_op hop
              split at h
              · cases h
              · next right ts' hright =>
                  obtain ⟨D, hD, htree⟩ := hpart _ _ _ hright
                  obtain ⟨D', hD', htree'⟩ := ih h
                  refine ⟨.more o D D', ⟨?_, ?_, fun h ↦ ?_⟩, ?_⟩
                  · simp [hD.yield, hD'.yield, hkind]
                  · exact max_lt hD.nesting hD'.nesting
                  · exact (hD.names (hD'.names h)).cons (hkind ▸ o.kind_ne_ident)
                  · simpa [tree, htree] using htree'

theorem sound_chain {part : Parser} (hpart : Sound part p.part (n + 1)) :
    Sound (chain x p.ops part) (.chain p) (n + 1) := by
  intro ts e rest h
  rw [chain] at h
  split at h
  · cases h
  · next left ts' hleft =>
      obtain ⟨D, hD, htree⟩ := hpart _ _ _ hleft
      obtain ⟨D', hD', htree'⟩ := sound_chainFrom hpart h
      refine ⟨.chain D D', ⟨?_, ?_, fun h ↦ hD.names (hD'.names h)⟩, ?_⟩
      · simp [hD.yield, hD'.yield]
      · exact max_lt hD.nesting hD'.nesting
      · simpa [htree] using htree'

theorem sound_level (x : Extent) (n : Nat) :
    Sound (level x n).operand .operand n ∧ Sound (level x n).formula .formula n := by
  induction n with
  | zero =>
      constructor
      · rintro ts e rest ⟨⟩
      · rintro ts e rest ⟨⟩
  | succ n ih =>
      have hoperand : Sound (signed x (level x n)) .operand (n + 1) := sound_signed ih.2 ih.1
      have hproduct := sound_chain (x := x) (p := .product) hoperand
      exact ⟨hoperand, sound_chain (p := .sum) hproduct⟩

def parserOf (x : Extent) (inner : Level) : Rule → Parser
  | .chain .sum => chain x additive (chain x multiplicative (signed x inner))
  | .chain .product => chain x multiplicative (signed x inner)
  | .operand => signed x inner
  | .primary => primary x inner

theorem parserOf_chain (x : Extent) (inner : Level) (p : Precedence) :
    parserOf x inner (.chain p) = chain x p.ops (parserOf x inner p.part) := by
  cases p <;> rfl

theorem chainFrom_of_ends {part : Parser} {ts : List Token} (hends : (Rule.chain p).Ends (kinds ts))
    (rounds : Nat) (left : Expr) : chainFrom p.ops part rounds left ts = .ok (left, ts) := by
  cases rounds with
  | zero => rfl
  | succ rounds =>
      cases ts with
      | nil => rfl
      | cons t ts =>
          cases hop : p.ops t.kind with
          | none => simp [chainFrom, hop]
          | some op =>
              obtain ⟨o, hkind, -⟩ := Precedence.exists_op hop
              exact absurd (by rw [hkind]; rfl) (hends.ne_op_cons o (kinds ts))

theorem signed_of_ne_minus {ts : List Token} (h : ∀ w, kinds ts ≠ .minus :: w) :
    signed x inner ts = primary x inner ts := by
  rw [signed.eq_def]
  split
  · exact absurd rfl (h _)
  · exact absurd rfl (h _)
  · rfl

theorem signed_minus {ts rest : List Token} {e : Expr} (c : Nat) (h : number? (kinds ts) = none)
    (hread : inner.operand ts = .ok (e, rest)) :
    signed x inner (⟨.minus, c⟩ :: ts) = .ok (.neg e, rest) := by
  rw [signed.eq_def]
  split
  · next heq =>
      cases heq
      cases h
  · next heq =>
      cases heq
      rw [hread]
      rfl
  · next hnot => exact (hnot _ _ rfl).elim

theorem primary_bare {ts : List Token} {name : String} {v : Var} (c : Nat)
    (h : (kinds ts).head? ≠ some .lparen) (hname : Var.ofName? name = some v) :
    primary x inner (⟨.ident name, c⟩ :: ts) = .ok (.var v, ts) := by
  rw [primary.eq_def]
  split
  · next heq => cases heq
  · next heq =>
      cases heq
      exact absurd rfl h
  · next heq =>
      cases heq
      rw [hname]
  · next heq => cases heq
  · next hnot _ => exact (hnot _ _ _ rfl).elim

theorem primary_call {ts rest : List Token} {e : Expr} (name : String) (c c' : Nat) {c'' : Nat}
    (hread : inner.formula ts = .ok (e, ⟨.rparen, c''⟩ :: rest)) :
    primary x inner (⟨.ident name, c⟩ :: ⟨.lparen, c'⟩ :: ts) = .ok (.call name e, rest) := by
  rw [primary, hread]
  rfl

theorem primary_group {ts rest : List Token} {e : Expr} (c : Nat) {c' : Nat}
    (hread : inner.formula ts = .ok (e, ⟨.rparen, c'⟩ :: rest)) :
    primary x inner (⟨.lparen, c⟩ :: ts) = .ok (e, rest) := by
  rw [primary, hread]
  rfl

/-- The derivation can be read off the front of the tokens, up to those of the kinds `w`. -/
structure Leads {ph : Phrase} (x : Extent) (n : Nat) (D : Derivation ph) (ts : List Token)
    (w : List Kind) : Prop where
  yield : kinds ts = D.yield ++ w
  ends : ph.rule.Ends w
  names : NamesKnown (kinds ts)
  length : ts.length ≤ x.length
  nesting : D.nesting ≤ n

/-- The parsers read the derivation off the front of the tokens, up to those of the kinds `w`. -/
def IsRead (x : Extent) (n : Nat) (ts : List Token) (w : List Kind) :
    {ph : Phrase} → Derivation ph → Prop
  | .whole r, D => ∃ e rest, parserOf x (level x n) r ts = .ok (e, rest) ∧ kinds rest = w ∧
      e.tree = D.tree
  | .tail p, D => ∀ rounds left, ts.length ≤ rounds → ∃ e rest,
      chainFrom p.ops (parserOf x (level x n) p.part) rounds left ts = .ok (e, rest) ∧
        kinds rest = w ∧ e.tree = D.tree left.tree

theorem length_le_of_kinds {ts rest : List Token} {v : List Kind} (h : kinds ts = v ++ kinds rest) :
    rest.length ≤ ts.length := by
  have hlen := congrArg List.length h
  simp only [kinds, List.length_map, List.length_append] at hlen
  omega

theorem exists_cons_of_kinds {ts : List Token} {k : Kind} {w : List Kind} (h : kinds ts = k :: w) :
    ∃ c rest, ts = ⟨k, c⟩ :: rest ∧ kinds rest = w := by
  obtain ⟨⟨k, c⟩, rest, rfl, rfl, hrest⟩ := List.map_eq_cons_iff.1 h
  exact ⟨c, rest, rfl, hrest⟩

/-- What is between parentheses is read one level deeper. -/
theorem exists_formula_of_enclosed {D : Derivation (.whole .formula)} {ts : List Token}
    {w : List Kind} (ih : ∀ {n ts w}, Leads x n D ts w → IsRead x n ts w D)
    (hyield : kinds ts = D.yield ++ .rparen :: w) (hnames : NamesKnown (kinds ts))
    (hlength : ts.length ≤ x.length) (hnesting : D.nesting + 1 ≤ n) :
    ∃ e c rest, (level x n).formula ts = .ok (e, ⟨.rparen, c⟩ :: rest) ∧ kinds rest = w ∧
      e.tree = D.tree := by
  obtain ⟨n, rfl⟩ : ∃ k, n = k + 1 := ⟨n - 1, by omega⟩
  obtain ⟨e, ts', hread, hts', htree⟩ :=
    ih ⟨hyield, Rule.ends_rparen _ _, hnames, hlength, Nat.le_of_succ_le_succ hnesting⟩
  obtain ⟨c, rest, rfl, hrest⟩ := exists_cons_of_kinds hts'
  exact ⟨e, c, rest, hread, hrest, htree⟩

theorem isRead_of_leads {ph : Phrase} {D : Derivation ph} {ts : List Token} {w : List Kind}
    (h : Leads x n D ts w) : IsRead x n ts w D := by
  induction D generalizing n ts w with
  | @chain p first rest ihFirst ihRest =>
      obtain ⟨hyield, hends, hnames, hlength, hnesting⟩ := h
      rw [Derivation.yield, List.append_assoc] at hyield
      rw [Derivation.nesting, max_le_iff] at hnesting
      obtain ⟨left, ts', hleft, hts', htree⟩ :=
        ihFirst ⟨hyield, rest.ends_part hends, hnames, hlength, hnesting.1⟩
      rw [← hts'] at hyield
      have hshort := length_le_of_kinds hyield
      have hrest : Leads x n rest ts' w :=
        ⟨hts', hends, (hyield ▸ hnames).of_append, hshort.trans hlength, hnesting.2⟩
      obtain ⟨e, rest', hread, hrest', htree'⟩ :=
        ihRest hrest x.length left (hshort.trans hlength)
      refine ⟨e, rest', ?_, hrest', ?_⟩
      · rw [parserOf_chain, chain, hleft]
        exact hread
      · rw [htree', htree]
        rfl
  | done =>
      intro rounds left _
      obtain rfl : kinds ts = w := h.yield
      exact ⟨left, ts, chainFrom_of_ends h.ends rounds left, rfl, rfl⟩
  | @more p o next rest ihNext ihRest =>
      intro rounds left hrounds
      obtain ⟨hyield, hends, hnames, hlength, hnesting⟩ := h
      rw [Derivation.yield, List.cons_append, List.append_assoc] at hyield
      rw [Derivation.nesting, max_le_iff] at hnesting
      obtain ⟨c, ts, rfl, hts⟩ := exists_cons_of_kinds hyield
      rw [List.length_cons] at hlength hrounds
      have hnames : NamesKnown (kinds ts) := (namesKnown_cons.1 hnames).2
      obtain ⟨right, ts', hright, hts', htree⟩ :=
        ihNext ⟨hts, rest.ends_part hends, hnames, by omega, hnesting.1⟩
      rw [← hts'] at hts
      have hshort := length_le_of_kinds hts
      have hrest : Leads x n rest ts' w :=
        ⟨hts', hends, (hts ▸ hnames).of_append, by omega, hnesting.2⟩
      -- The operator was one token, so a round is left for each of those behind it.
      obtain ⟨rounds, rfl⟩ : ∃ k, rounds = k + 1 := ⟨rounds - 1, by omega⟩
      obtain ⟨e, rest', hread, hrest', htree'⟩ :=
        ihRest hrest rounds (.bin o.binOp left right) (by omega)
      refine ⟨e, rest', ?_, hrest', ?_⟩
      · rw [chainFrom, o.ops_kind, hright]
        exact hread
      · rw [htree', tree, htree]
        rfl
  | minus D ih =>
      obtain ⟨hyield, hends, hnames, hlength, hnesting⟩ := h
      rw [Derivation.yield, List.cons_append] at hyield
      obtain ⟨c, ts, rfl, hts⟩ := exists_cons_of_kinds hyield
      cases hnumber : number? D.yield with
      | some v =>
          obtain rfl := Derivation.eq_number_of_number? hnumber
          obtain ⟨c', ts, rfl, rfl⟩ := exists_cons_of_kinds hts
          exact ⟨.number (-v), ts, rfl, rfl, rfl⟩
      | none =>
          simp only [Derivation.nesting, hnumber] at hnesting
          obtain ⟨n, rfl⟩ : ∃ k, n = k + 1 := ⟨n - 1, by omega⟩
          obtain ⟨e, rest, hread, hrest, htree⟩ :=
            ih ⟨hts, hends, (namesKnown_cons.1 hnames).2, Nat.le_of_succ_le hlength,
              Nat.le_of_succ_le_succ hnesting⟩
          have hfirst : number? (kinds ts) = none := by
            rw [hts, D.number?_yield_append, hnumber]
          refine ⟨.neg e, rest, signed_minus c hfirst hread, hrest, ?_⟩
          simp [tree, hnumber, htree]
  | plain D ih =>
      obtain ⟨e, rest, hread, hrest, htree⟩ := ih ⟨h.yield, h.ends, h.names, h.length, h.nesting⟩
      have hminus : ∀ v, kinds ts ≠ .minus :: v := by
        intro v
        rw [h.yield]
        exact D.yield_append_ne_minus_cons w v
      exact ⟨e, rest, (signed_of_ne_minus hminus).trans hread, hrest, htree⟩
  | number v =>
      obtain ⟨c, ts, rfl, rfl⟩ := exists_cons_of_kinds h.yield
      exact ⟨.number v, ts, rfl, rfl, rfl⟩
  | call name arg ih =>
      obtain ⟨hyield, -, hnames, hlength, hnesting⟩ := h
      simp only [Derivation.yield, List.cons_append, List.append_assoc] at hyield
      obtain ⟨c, _, rfl, hopen⟩ := exists_cons_of_kinds hyield
      obtain ⟨c', ts, rfl, hts⟩ := exists_cons_of_kinds hopen
      have hnames := (namesKnown_cons.1 (namesKnown_cons.1 hnames).2).2
      have hlength := Nat.le_of_succ_le (Nat.le_of_succ_le hlength)
      obtain ⟨e, c'', rest, hread, hrest, htree⟩ :=
        exists_formula_of_enclosed ih hts hnames hlength hnesting
      refine ⟨.call name e, rest, primary_call name c c' hread, hrest, ?_⟩
      rw [tree, htree]
      rfl
  | bare name =>
      obtain ⟨c, ts, rfl, rfl⟩ := exists_cons_of_kinds h.yield
      have hlparen := h.ends.head?_ne_lparen
      have hname := ((namesKnown_cons.1 h.names).1 name rfl).resolve_left hlparen
      exact ⟨_, ts, primary_bare c hlparen (ofName?_of_known hname), rfl, rfl⟩
  | group D ih =>
      obtain ⟨hyield, -, hnames, hlength, hnesting⟩ := h
      simp only [Derivation.yield, List.cons_append, List.append_assoc] at hyield
      obtain ⟨c, ts, rfl, hts⟩ := exists_cons_of_kinds hyield
      have hnames := (namesKnown_cons.1 hnames).2
      obtain ⟨e, c', rest, hread, hrest, htree⟩ :=
        exists_formula_of_enclosed ih hts hnames (Nat.le_of_succ_le hlength) hnesting
      exact ⟨e, rest, primary_group c hread, hrest, htree⟩

theorem ofTokens_eq_ok_iff {ts : List Token} {e : Expr} :
    ofTokens ts = .ok e ↔
      parserOf ⟨(body ts).length, endColumn ts⟩ (level ⟨(body ts).length, endColumn ts⟩ maxNesting)
        .formula (body ts) = .ok (e, []) := by
  rw [ofTokens]
  cases body ts with
  | nil =>
      constructor
      · rintro ⟨⟩
      · rintro ⟨⟩
  | cons t ws =>
      have hlevel : ∀ x, (level x (maxNesting + 1)).formula =
          parserOf x (level x maxNesting) .formula := fun _ ↦ rfl
      simp only [List.isEmpty_cons, Bool.false_eq_true, if_false, hlevel]
      generalize parserOf _ _ _ (t :: ws) = read
      constructor
      · intro h
        split at h
        · cases h
        · cases h
          rfl
        · cases h
      · rintro rfl
        rfl

theorem kinds_body (ts : List Token) : kinds (body ts) = (kinds ts).takeWhile (· ≠ .eof) := by
  have hend : (fun t : Token ↦ !t.kind.isEof) = (fun k ↦ decide (k ≠ .eof)) ∘ Token.kind := by
    funext ⟨k, c⟩
    cases k <;> rfl
  rw [List.takeWhile_map, body, hend]

theorem exists_derivation_of_ofTokens {ts : List Token} {e : Expr} (h : ofTokens ts = .ok e) :
    NamesKnown (kinds (body ts)) ∧ ∃ D : Derivation (.whole .formula),
      D.yield = kinds (body ts) ∧ D.nesting ≤ maxNesting ∧ e.tree = D.tree := by
  obtain ⟨D, ⟨hyield, hnesting, hnames⟩, htree⟩ :=
    (sound_level _ (maxNesting + 1)).2 _ _ _ (ofTokens_eq_ok_iff.1 h)
  refine ⟨hnames namesKnown_nil, D, ?_, Nat.lt_succ_iff.1 hnesting, htree⟩
  rw [hyield]
  exact (List.append_nil _).symm

theorem exists_ofTokens_of_derivation {ts : List Token} {D : Derivation (.whole .formula)}
    (hnames : NamesKnown (kinds (body ts))) (hyield : D.yield = kinds (body ts))
    (hnesting : D.nesting ≤ maxNesting) : ∃ e, ofTokens ts = .ok e := by
  have hleads : Leads ⟨(body ts).length, endColumn ts⟩ maxNesting D (body ts) [] :=
    ⟨by rw [hyield, List.append_nil], Rule.ends_nil _, hnames, le_refl _, hnesting⟩
  obtain ⟨e, rest, hread, hrest, -⟩ := isRead_of_leads hleads
  obtain rfl := List.map_eq_nil_iff.1 hrest
  exact ⟨e, ofTokens_eq_ok_iff.2 hread⟩

/-- Tokens up to the end are read if and only if the grammar derives them with at most 256 levels
around each token, and names that are not called are `x` or `y`. What is read stands for the tree of
the only derivation. -/
theorem ofTokens_accepts_grammar (ts : List Token) :
    let w := (ts.map Token.kind).takeWhile (· ≠ .eof)
    ((∃ e, ofTokens ts = .ok e) ↔
        NamesKnown w ∧ ∃ D : Derivation (.whole .formula), D.yield = w ∧ D.nesting ≤ 256) ∧
      ∀ e, ofTokens ts = .ok e → ∃ D : Derivation (.whole .formula),
        (∀ D' : Derivation (.whole .formula), D'.yield = w ↔ D' = D) ∧
          e.toGraph.tree = D.tree := by
  rw [← kinds_body]
  refine ⟨⟨?_, ?_⟩, fun e he ↦ ?_⟩
  · rintro ⟨e, he⟩
    obtain ⟨hnames, D, hyield, hnesting, -⟩ := exists_derivation_of_ofTokens he
    exact ⟨hnames, D, hyield, hnesting⟩
  · rintro ⟨hnames, D, hyield, hnesting⟩
    exact exists_ofTokens_of_derivation hnames hyield hnesting
  · obtain ⟨-, D, hyield, -, htree⟩ := exists_derivation_of_ofTokens he
    refine ⟨D, fun D' ↦ ⟨fun h ↦ ?_, fun h ↦ h ▸ hyield⟩, e.tree_toGraph.trans htree⟩
    exact Derivation.yield_injective (h.trans hyield.symm)

end Expr

end Formula
