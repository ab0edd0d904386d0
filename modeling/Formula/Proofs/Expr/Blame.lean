import Formula.Proofs.Expr.Parsing
import Formula.Proofs.Token.Tiling

/-!
# Where the parser stops

Read from the left, a formula is always at one of three places: an operand has to come, a name has
just been read, or another operand has. With the number of open parentheses this says which tokens
may come next (`Spot.step`), and every derivation keeps to it (`Derivation.exists_run`). The parser
stops only in front of a token that is not among these, and what it has read up to there can be
completed (`Expr.Outcome`).
-/

namespace Formula

open Grammar Token

namespace Grammar

inductive Place where
  /-- An operand has to come. -/
  | start
  | name
  | operand
deriving DecidableEq

/-- A place, and how many parentheses are open there. -/
structure Spot where
  place : Place
  depth : Nat

namespace Spot

def step : Spot → Kind → Option Spot
  | ⟨.start, d⟩, k =>
    match k with
    | .number _ => some ⟨.operand, d⟩
    | .ident _ => some ⟨.name, d⟩
    | .minus => some ⟨.start, d⟩
    | .lparen => some ⟨.start, d + 1⟩
    | _ => none
  | ⟨q, d⟩, k =>
    match k with
    | .plus | .minus | .star | .slash => some ⟨.start, d⟩
    | .lparen => if q = .name then some ⟨.start, d + 1⟩ else none
    | .rparen => if d = 0 then none else some ⟨.operand, d - 1⟩
    | _ => none

def run (s : Spot) (w : List Kind) : Option Spot := w.foldlM step s

/-- Nothing that starts with the token can come next. At the end of the tokens, there is something
missing. -/
def Refuses (s : Spot) : Option Kind → Prop
  | none => s.place = .start ∨ s.depth ≠ 0
  | some k => s.step k = none

variable {q : Place} {d : Nat}

theorem run_append (s : Spot) (v w : List Kind) : s.run (v ++ w) = (s.run v).bind (run · w) :=
  List.foldlM_append

theorem run_cons (s : Spot) (k : Kind) (w : List Kind) :
    s.run (k :: w) = (s.step k).bind (run · w) :=
  List.foldlM_cons

theorem step_op (hq : q ≠ .start) {p : Precedence} (o : Op p) :
    step ⟨q, d⟩ o.kind = some ⟨.start, d⟩ := by
  cases q with
  | start => exact absurd rfl hq
  | name => cases o <;> rfl
  | operand => cases o <;> rfl

theorem step_rparen (hq : q ≠ .start) : step ⟨q, d + 1⟩ .rparen = some ⟨.operand, d⟩ := by
  cases q with
  | start => exact absurd rfl hq
  | name => rfl
  | operand => rfl

end Spot

/-- The tokens in front of a formula in parentheses. -/
structure Opens (v : List Kind) : Prop where
  derives : ∀ D : Derivation (.whole .formula), ∃ D' : Derivation (.whole .primary),
    D'.yield = v ++ (D.yield ++ [.rparen]) ∧ D'.nesting = D.nesting + 1
  names : ∀ w, NamesKnown w → NamesKnown (v ++ w)
  run : ∀ d, Spot.run ⟨.start, d⟩ v = some ⟨.start, d + 1⟩

theorem opens_group : Opens [.lparen] where
  derives D := ⟨.group D, rfl, rfl⟩
  names w hw := hw.cons (by simp)
  run d := rfl

theorem opens_call (name : String) : Opens [.ident name, .lparen] where
  derives D := ⟨.call name D, rfl, rfl⟩
  names w hw := namesKnown_cons.2 ⟨fun _ _ ↦ .inl rfl, hw.cons (by simp)⟩
  run d := rfl

theorem Opens.run_closed {v w : List Kind} (hv : Opens v) {q : Place} (hq : q ≠ .start)
    (hw : ∀ d, Spot.run ⟨.start, d⟩ w = some ⟨q, d⟩) (d : Nat) :
    Spot.run ⟨.start, d⟩ (v ++ (w ++ [.rparen])) = some ⟨.operand, d⟩ := by
  rw [Spot.run_append, hv.run, Option.bind_some, Spot.run_append, hw, Option.bind_some,
    Spot.run_cons, Spot.step_rparen hq]
  rfl

/-- Where a phrase starts. -/
def Phrase.StartsAt : Phrase → Place → Prop
  | whole _, q => q = .start
  | tail _, q => q ≠ .start

namespace Derivation

theorem exists_run {ph : Phrase} (D : Derivation ph) {q : Place} (hq : ph.StartsAt q) :
    ∃ q', q' ≠ .start ∧ ∀ d, Spot.run ⟨q, d⟩ D.yield = some ⟨q', d⟩ := by
  induction D generalizing q with
  | chain first rest ihFirst ihRest =>
      obtain ⟨q₁, hq₁, hfirst⟩ := ihFirst hq
      obtain ⟨q₂, hq₂, hrest⟩ := ihRest hq₁
      exact ⟨q₂, hq₂, fun d ↦ by simp [Spot.run_append, hfirst, hrest]⟩
  | done => exact ⟨q, hq, fun d ↦ rfl⟩
  | more o next rest ihNext ihRest =>
      obtain ⟨q₁, hq₁, hnext⟩ := ihNext rfl
      obtain ⟨q₂, hq₂, hrest⟩ := ihRest hq₁
      refine ⟨q₂, hq₂, fun d ↦ ?_⟩
      simp [Spot.run_cons, Spot.run_append, Spot.step_op hq, hnext, hrest]
  | minus D ih =>
      obtain ⟨q₁, hq₁, hrun⟩ := ih rfl
      cases hq
      exact ⟨q₁, hq₁, fun d ↦ hrun d⟩
  | plain D ih => exact ih hq
  | number v =>
      cases hq
      exact ⟨.operand, by simp, fun d ↦ rfl⟩
  | call name arg ih =>
      obtain ⟨q₁, hq₁, hrun⟩ := ih rfl
      cases hq
      exact ⟨.operand, by simp, (opens_call name).run_closed hq₁ hrun⟩
  | bare name =>
      cases hq
      exact ⟨.name, by simp, fun d ↦ rfl⟩
  | group D ih =>
      obtain ⟨q₁, hq₁, hrun⟩ := ih rfl
      cases hq
      exact ⟨.operand, by simp, opens_group.run_closed hq₁ hrun⟩

theorem eof_not_mem_yield {ph : Phrase} (D : Derivation ph) : .eof ∉ D.yield := by
  induction D with
  | more o next rest ihNext ihRest => cases o <;> simp_all [Op.kind]
  | _ => simp_all

/-- No formula goes on with a token that is refused, or ends where something is missing. -/
theorem yield_ne_of_refuses (D : Derivation (.whole .formula)) {v w : List Kind} {s : Spot}
    (hrun : Spot.run ⟨.start, 0⟩ v = some s) (href : s.Refuses w.head?) : D.yield ≠ v ++ w := by
  intro hyield
  obtain ⟨q, hq, hend⟩ := D.exists_run rfl
  have hend := hend 0
  rw [hyield, Spot.run_append, hrun, Option.bind_some] at hend
  cases w with
  | nil =>
      cases hend
      rcases href with hplace | hdepth
      · exact hq hplace
      · exact hdepth rfl
  | cons k w =>
      have hstep : s.step k = none := href
      rw [Spot.run_cons, hstep] at hend
      cases hend

end Derivation

/-- What goes on with a text of the rule does not come next. A parenthesis goes on with a name
only. -/
def Rule.Leaves (r : Rule) (q : Place) (w : List Kind) : Prop :=
  ∀ k ∈ w.head?, k ∈ r.continuations → k = .lparen ∧ q ≠ .name

/-- The tokens `v` lead from a place to a spot, whatever the depth, and `w` completes them to a
phrase that fits into `n` levels. -/
structure Reaches (ph : Phrase) (n : Nat) (q : Place) (v : List Kind) (s : Nat → Spot)
    (w : List Kind) : Prop where
  derives : ∃ D : Derivation ph, D.yield = v ++ w ∧ D.nesting < n
  names : NamesKnown (v ++ w)
  run : ∀ d, Spot.run ⟨q, d⟩ v = some (s d)

section Phrases

variable {p : Precedence} {n : Nat} {q q₁ : Place} {s : Nat → Spot} {u v w : List Kind}

theorem NamesKnown.append (hv : NamesKnown v) (hw : NamesKnown w) : NamesKnown (v ++ w) := by
  induction v with
  | nil => exact hw
  | cons k v ih =>
      obtain ⟨hk, hv⟩ := namesKnown_cons.1 hv
      refine namesKnown_cons.2 ⟨fun name hname ↦ ?_, ih hv⟩
      rcases hk name hname with hopen | hknown
      · cases v with
        | nil => cases hopen
        | cons k' v => exact .inl hopen
      · exact .inr hknown

theorem Rule.Leaves.chain (h : p.part.Leaves q w) (hop : ∀ k ∈ w.head?, p.ops k = none) :
    (Rule.chain p).Leaves q w := by
  intro k hk hmem
  have hnone := hop k hk
  apply h k hk
  cases p with
  | sum => cases k <;> simp_all [Rule.continuations, Precedence.ops, Precedence.part, Expr.additive]
  | product =>
      cases k <;>
        simp_all [Rule.continuations, Precedence.ops, Precedence.part, Expr.multiplicative]

theorem Rule.Leaves.step_eq_none {k : Kind} {d : Nat} (h : Rule.formula.Leaves q (k :: w))
    (hq : q ≠ .start) (hclose : k = .rparen → d = 0) : Spot.step ⟨q, d⟩ k = none := by
  have hk := h k rfl
  cases k with
  | plus | minus | star | slash => simp [Rule.continuations] at hk
  | lparen =>
      have hname := (hk (by simp [Rule.continuations])).2
      cases q <;> simp_all [Spot.step]
  | rparen =>
      obtain rfl := hclose rfl
      cases q <;> simp_all [Spot.step]
  | number | ident | eof => cases q <;> simp_all [Spot.step]

namespace Reaches

theorem plain (h : Reaches (.whole .primary) n q v s w) : Reaches (.whole .operand) n q v s w where
  derives := by
    obtain ⟨D, hyield, hD⟩ := h.derives
    exact ⟨.plain D, hyield, hD⟩
  names := h.names
  run := h.run

theorem minus (h : Reaches (.whole .operand) n .start v s w) :
    Reaches (.whole .operand) (n + 1) .start (.minus :: v) s w where
  derives := by
    obtain ⟨D, hyield, hD⟩ := h.derives
    have hdeep : (Derivation.minus D).nesting ≤ D.nesting + 1 := by
      rw [Derivation.nesting]
      split
      · exact Nat.le_succ _
      · exact le_rfl
    exact ⟨.minus D, congrArg _ hyield, hdeep.trans_lt (Nat.succ_lt_succ hD)⟩
  names := h.names.cons (by simp)
  run := h.run

/-- In the first part of a chain. -/
theorem first (h : Reaches (.whole p.part) (n + 1) q v s w) :
    Reaches (.whole (.chain p)) (n + 1) q v s w where
  derives := by
    obtain ⟨D, hyield, hD⟩ := h.derives
    exact ⟨.chain D .done, (List.append_nil _).trans hyield, max_lt hD (Nat.succ_pos n)⟩
  names := h.names
  run := h.run

/-- Behind the first part of a chain. -/
theorem chain (hu : Reaches (.whole p.part) n q u (⟨q₁, ·⟩) [])
    (h : Reaches (.tail p) n q₁ v s w) : Reaches (.whole (.chain p)) n q (u ++ v) s w where
  derives := by
    obtain ⟨D, hyield, hD⟩ := hu.derives
    obtain ⟨D', hyield', hD'⟩ := h.derives
    refine ⟨.chain D D', ?_, max_lt hD hD'⟩
    rw [Derivation.yield, hyield, hyield', List.append_nil, List.append_assoc]
  names := by
    have hnames := hu.names
    rw [List.append_nil] at hnames
    rw [List.append_assoc]
    exact hnames.append h.names
  run d := by rw [Spot.run_append, hu.run, Option.bind_some, h.run]

/-- In the part behind an operator. -/
theorem op (hq : q ≠ .start) (o : Op p) (h : Reaches (.whole p.part) (n + 1) .start v s w) :
    Reaches (.tail p) (n + 1) q (o.kind :: v) s w where
  derives := by
    obtain ⟨D, hyield, hD⟩ := h.derives
    refine ⟨.more o D .done, ?_, max_lt hD (Nat.succ_pos n)⟩
    rw [Derivation.yield, Derivation.yield, List.append_nil, hyield, List.cons_append]
  names := h.names.cons o.kind_ne_ident
  run d := by rw [Spot.run_cons, Spot.step_op hq, Option.bind_some, h.run]

/-- Behind the part that an operator joins. -/
theorem more (hq : q ≠ .start) (o : Op p) (hu : Reaches (.whole p.part) n .start u (⟨q₁, ·⟩) [])
    (h : Reaches (.tail p) n q₁ v s w) : Reaches (.tail p) n q (o.kind :: (u ++ v)) s w where
  derives := by
    obtain ⟨D, hyield, hD⟩ := hu.derives
    obtain ⟨D', hyield', hD'⟩ := h.derives
    refine ⟨.more o D D', ?_, max_lt hD hD'⟩
    rw [Derivation.yield, hyield, hyield', List.append_nil, List.cons_append, List.append_assoc]
  names := (hu.chain h).names.cons o.kind_ne_ident
  run d := by rw [Spot.run_cons, Spot.step_op hq, Option.bind_some, (hu.chain h).run]

/-- In a formula in parentheses. -/
theorem opened (hu : Opens u) (h : Reaches (.whole .formula) n .start v s w) :
    Reaches (.whole .primary) (n + 1) .start (u ++ v) (s <| · + 1) (w ++ [.rparen]) where
  derives := by
    obtain ⟨D, hyield, hD⟩ := h.derives
    obtain ⟨D', hyield', hD'⟩ := hu.derives D
    refine ⟨D', ?_, by omega⟩
    simp only [hyield', hyield, List.append_assoc]
  names := by
    have hclose : NamesKnown [.rparen] := namesKnown_nil.cons (by simp)
    have hnames := hu.names _ (h.names.append hclose)
    simpa only [List.append_assoc] using hnames
  run d := by rw [Spot.run_append, hu.run, Option.bind_some, h.run]

theorem closed (hu : Opens u) (hq : q ≠ .start)
    (h : Reaches (.whole .formula) n .start v (⟨q, ·⟩) []) :
    Reaches (.whole .primary) (n + 1) .start (u ++ (v ++ [.rparen])) (⟨.operand, ·⟩) [] where
  derives := by
    obtain ⟨D, hyield, hD⟩ := (h.opened hu).derives
    exact ⟨D, by simpa using hyield, hD⟩
  names := by simpa using (h.opened hu).names
  run := hu.run_closed hq h.run

end Reaches

end Phrases

end Grammar

namespace Expr

variable {x : Extent} {inner : Level} {n : Nat} {p : Precedence} {q : Place}

/-- What a parser makes of tokens. Either it takes a phrase off the front and nothing that goes on
with it comes next, or it stops in front of a token that cannot come next, and what is before that
token can be completed. -/
def Outcome (x : Extent) (ph : Phrase) (n : Nat) (q : Place) (ts : List Token) :
    Except ReadError (List Token) → Prop
  | .ok rest => ∃ pre q', ts = pre ++ rest ∧ q' ≠ .start ∧
      Reaches ph n q (kinds pre) (⟨q', ·⟩) [] ∧ ph.rule.Leaves q' (kinds rest)
  | .error (.malformed column what) => (∀ limit, what ≠ .nestedTooDeep limit) →
      ∃ pre rest s w, ts = pre ++ rest ∧ column = x.columnOf rest ∧
        Reaches ph n q (kinds pre) s w ∧ ∀ d, (s d).Refuses (kinds rest).head?
  | .error (.unknownVariable _) => True

def Reports (x : Extent) (P : Parser) (r : Rule) (n : Nat) : Prop :=
  ∀ ts, ts.length ≤ x.length → Outcome x (.whole r) n .start ts ((P ts).map Prod.snd)

section Outcome

variable {ph ph' : Phrase} {n' : Nat} {q' : Place} {ts : List Token}

/-- What is put in front of the tokens may open `j` parentheses. -/
theorem Outcome.of_error {e : ReadError} (h : Outcome x ph n q ts (.error e)) (pre : List Token)
    (j : Nat)
    (hreach : ∀ v s w, Reaches ph n q v s w →
      ∃ w', Reaches ph' n' q' (kinds pre ++ v) (s <| · + j) w') :
    Outcome x ph' n' q' (pre ++ ts) (.error e) := by
  cases e with
  | malformed column what =>
      intro hwhat
      obtain ⟨pre', rest, s, w, rfl, hcolumn, hv, hrefuses⟩ := h hwhat
      obtain ⟨w', hv'⟩ := hreach _ _ _ hv
      refine ⟨pre ++ pre', rest, _, w', (List.append_assoc _ _ _).symm, hcolumn, ?_,
        fun d ↦ hrefuses (d + j)⟩
      rw [kinds, List.map_append]
      exact hv'
  | unknownVariable name => trivial

theorem Outcome.lift {result : Except ReadError (List Token)} (h : Outcome x ph n q ts result)
    (pre : List Token)
    (hreach : ∀ v s w, Reaches ph n q v s w → Reaches ph' n' q' (kinds pre ++ v) s w)
    (hleaves : ∀ q w, ph.rule.Leaves q w → ph'.rule.Leaves q w) :
    Outcome x ph' n' q' (pre ++ ts) result := by
  cases result with
  | error e => exact h.of_error pre 0 fun v s w hv ↦ ⟨w, hreach v s w hv⟩
  | ok rest =>
      obtain ⟨pre', q₁, rfl, hq₁, hv, hnext⟩ := h
      refine ⟨pre ++ pre', q₁, (List.append_assoc _ _ _).symm, hq₁, ?_, hleaves _ _ hnext⟩
      rw [kinds, List.map_append]
      exact hreach _ _ _ hv

end Outcome

theorem closed_cases (x : Extent) (ts : List Token) :
    (∃ c rest, ts = ⟨.rparen, c⟩ :: rest ∧ closed x ts = .ok rest) ∨
      (kinds ts).head? ≠ some .rparen ∧ closed x ts = .error (refuse x .expectedClose ts) := by
  rw [closed.eq_def]
  split
  · next c rest => exact .inl ⟨c, rest, rfl, rfl⟩
  · next hnot =>
      refine .inr ⟨fun hclose ↦ ?_, rfl⟩
      cases ts with
      | nil => cases hclose
      | cons t ts =>
          obtain ⟨k, c⟩ := t
          cases hclose
          exact hnot c ts rfl

theorem outcome_enclosed (f : Expr → Expr) (us : List Token) {ts : List Token}
    (hu : Opens (kinds us))
    (h : Outcome x (.whole .formula) n .start ts ((inner.formula ts).map Prod.snd)) :
    Outcome x (.whole .primary) (n + 1) .start (us ++ ts) ((do
      let (e, ts) ← inner.formula ts
      let ts ← closed x ts
      return (f e, ts)).map Prod.snd) := by
  cases hread : inner.formula ts with
  | error err =>
      rw [hread] at h
      exact h.of_error us 1 fun v s w hv ↦ ⟨_, hv.opened hu⟩
  | ok read =>
      obtain ⟨e, ts'⟩ := read
      rw [hread] at h
      obtain ⟨pre, q, rfl, hq, hv, hleaves⟩ := h
      simp only [bind, Except.bind]
      rcases closed_cases x ts' with ⟨c, rest, rfl, hclosed⟩ | ⟨hnot, hclosed⟩
      · rw [hclosed]
        refine ⟨us ++ (pre ++ [⟨.rparen, c⟩]), .operand, by simp, by simp, ?_, fun k _ hk ↦ ?_⟩
        · simpa using hv.closed hu hq
        · exact ⟨List.mem_singleton.1 hk, by simp⟩
      · rw [hclosed]
        intro _
        refine ⟨us ++ pre, ts', (⟨q, · + 1⟩), [.rparen], (List.append_assoc _ _ _).symm, rfl, ?_,
          fun d ↦ ?_⟩
        · simpa using hv.opened hu
        · cases ts' with
          | nil => exact .inr (Nat.succ_ne_zero d)
          | cons t ts' =>
              apply hleaves.step_eq_none hq
              intro hclose
              exact absurd (congrArg some hclose) hnot

theorem outcome_primary (hformula : Reports x inner.formula .formula n) {ts : List Token}
    (hlength : ts.length ≤ x.length) (hminus : ∀ w, kinds ts ≠ .minus :: w) :
    Outcome x (.whole .primary) (n + 1) .start ts ((primary x inner ts).map Prod.snd) := by
  rw [primary.eq_def]
  split
  · next v c ts =>
      refine ⟨[⟨.number v, c⟩], .operand, rfl, by simp, ⟨⟨.number v, rfl, Nat.succ_pos n⟩, ?_,
        fun d ↦ rfl⟩, fun k _ hk ↦ ⟨List.mem_singleton.1 hk, by simp⟩⟩
      exact namesKnown_nil.cons (by simp)
  · next name c c' ts =>
      have hlength := Nat.le_of_succ_le (Nat.le_of_succ_le hlength)
      exact outcome_enclosed (.call name) [⟨.ident name, c⟩, ⟨.lparen, c'⟩] (opens_call name)
        (hformula ts hlength)
  · next name c ts hnot =>
      split
      · next v hname =>
          obtain ⟨hknown, -⟩ := eq_of_ofName? hname
          refine ⟨[⟨.ident name, c⟩], .name, rfl, by simp, ⟨⟨.bare name, rfl, Nat.succ_pos n⟩, ?_,
            fun d ↦ rfl⟩, fun k hk hmem ↦ ?_⟩
          · refine namesKnown_cons.2 ⟨?_, namesKnown_nil⟩
            rintro _ ⟨⟩
            exact .inr hknown
          · obtain rfl := List.mem_singleton.1 hmem
            obtain ⟨w, hw⟩ := List.head?_eq_some_iff.1 hk
            obtain ⟨c', ts', rfl, -⟩ := exists_cons_of_kinds hw
            exact (hnot c' ts' rfl).elim
      · trivial
  · next c ts =>
      exact outcome_enclosed id [⟨.lparen, c⟩] opens_group
        (hformula ts (Nat.le_of_succ_le hlength))
  · next hnumber _ hident hlparen =>
      intro _
      refine ⟨[], ts, (⟨.start, ·⟩), [.number 0], rfl, rfl, ⟨⟨.number 0, rfl, Nat.succ_pos n⟩, ?_,
        fun d ↦ rfl⟩, fun d ↦ ?_⟩
      · exact namesKnown_nil.cons (by simp)
      · cases ts with
        | nil => exact .inl rfl
        | cons t ts =>
            obtain ⟨k, c⟩ := t
            cases k with
            | number v => exact (hnumber v c ts rfl).elim
            | ident name => exact (hident name c ts rfl).elim
            | lparen => exact (hlparen c ts rfl).elim
            | minus => exact (hminus _ rfl).elim
            | plus | star | slash | rparen | eof => rfl

theorem reports_signed (hformula : Reports x inner.formula .formula n)
    (hoperand : Reports x inner.operand .operand n) :
    Reports x (signed x inner) .operand (n + 1) := by
  intro ts hlength
  rw [signed.eq_def]
  split
  · next c v c' ts =>
      refine ⟨[⟨.minus, c⟩, ⟨.number v, c'⟩], .operand, rfl, by simp,
        ⟨⟨.minus (.plain (.number v)), rfl, Nat.succ_pos n⟩, ?_, fun d ↦ rfl⟩,
        fun k _ hk ↦ ⟨List.mem_singleton.1 hk, by simp⟩⟩
      exact (namesKnown_nil.cons (by simp)).cons (by simp)
  · next c ts hnot =>
      have hinner := hoperand ts (Nat.le_of_succ_le hlength)
      have hmap : (do
          let (e, ts) ← inner.operand ts
          return (Expr.neg e, ts) : Except ReadError (Expr × List Token)).map Prod.snd =
            (inner.operand ts).map Prod.snd := by
        cases inner.operand ts <;> rfl
      rw [hmap]
      exact hinner.lift [⟨.minus, c⟩] (fun v s w hv ↦ hv.minus) fun q w h ↦ h
  · next hnot =>
      have hminus : ∀ w, kinds ts ≠ .minus :: w := by
        intro w hw
        obtain ⟨c, ts', rfl, -⟩ := exists_cons_of_kinds hw
        exact hnot c ts' rfl
      exact (outcome_primary hformula hlength hminus).lift [] (fun v s w hv ↦ hv.plain)
        fun q w h ↦ h

theorem outcome_chainFrom {part : Parser} (hpart : Reports x part p.part (n + 1)) {rounds : Nat}
    (left : Expr) {ts : List Token} (hrounds : ts.length ≤ rounds) (hlength : ts.length ≤ x.length)
    (hq : q ≠ .start) (hleaves : p.part.Leaves q (kinds ts)) :
    Outcome x (.tail p) (n + 1) q ts ((chainFrom p.ops part rounds left ts).map Prod.snd) := by
  have hdone : ∀ {q : Place} {ts : List Token}, q ≠ .start → p.part.Leaves q (kinds ts) →
      (∀ k ∈ (kinds ts).head?, p.ops k = none) → Outcome x (.tail p) (n + 1) q ts (.ok ts) :=
    fun {q ts} hq hleaves hops ↦ ⟨[], q, rfl, hq,
      ⟨⟨.done, rfl, Nat.succ_pos n⟩, namesKnown_nil, fun d ↦ rfl⟩, hleaves.chain hops⟩
  -- There are rounds enough for the tokens, so the last one does not stop in front of an operator.
  induction rounds generalizing left ts q with
  | zero =>
      obtain rfl := List.eq_nil_of_length_eq_zero (Nat.le_zero.1 hrounds)
      exact hdone hq hleaves (by simp)
  | succ rounds ih =>
      cases ts with
      | nil => exact hdone hq hleaves (by simp)
      | cons t ts =>
          rw [List.length_cons] at hrounds hlength
          rw [chainFrom]
          cases hop : p.ops t.kind with
          | none => exact hdone hq hleaves (by simpa using hop)
          | some op =>
              obtain ⟨o, hkind, -⟩ := Precedence.exists_op hop
              have hfirst := hpart ts (by omega)
              cases hread : part ts with
              | error err =>
                  rw [hread] at hfirst
                  refine hfirst.of_error [t] 0 fun v s w hv ↦ ⟨w, ?_⟩
                  simpa [← hkind] using hv.op hq o
              | ok read =>
                  obtain ⟨right, rest⟩ := read
                  rw [hread] at hfirst
                  obtain ⟨pre, q₁, rfl, hq₁, hu, hnext⟩ := hfirst
                  rw [List.length_append] at hrounds hlength
                  have hrest := ih (.bin op left right) (by omega) (by omega) hq₁ hnext
                  refine hrest.lift (t :: pre) (fun v s w hv ↦ ?_) fun q w h ↦ h
                  simpa [← hkind] using hu.more hq o hv

theorem reports_chain {part : Parser} (hpart : Reports x part p.part (n + 1)) :
    Reports x (chain x p.ops part) (.chain p) (n + 1) := by
  intro ts hlength
  have hfirst := hpart ts hlength
  rw [chain]
  cases hread : part ts with
  | error err =>
      rw [hread] at hfirst
      exact hfirst.of_error [] 0 fun v s w hv ↦ ⟨w, hv.first⟩
  | ok read =>
      obtain ⟨left, rest⟩ := read
      rw [hread] at hfirst
      obtain ⟨pre, q₁, rfl, hq₁, hu, hnext⟩ := hfirst
      rw [List.length_append] at hlength
      have hrest : rest.length ≤ x.length := (Nat.le_add_left _ _).trans hlength
      have htail := outcome_chainFrom hpart left hrest hrest hq₁ hnext
      exact htail.lift pre (fun v s w hv ↦ hu.chain hv) fun q w h ↦ h

theorem reports_level (x : Extent) (n : Nat) :
    Reports x (level x n).operand .operand n ∧ Reports x (level x n).formula .formula n := by
  induction n with
  | zero =>
      constructor
      · exact fun ts _ hlimit ↦ absurd rfl (hlimit maxNesting)
      · exact fun ts _ hlimit ↦ absurd rfl (hlimit maxNesting)
  | succ n ih =>
      have hoperand : Reports x (signed x (level x n)) .operand (n + 1) := reports_signed ih.2 ih.1
      have hproduct := reports_chain (x := x) (p := .product) hoperand
      exact ⟨hoperand, reports_chain (p := .sum) hproduct⟩

theorem isEof_eq_false {k : Kind} (h : k ≠ .eof) : k.isEof = false := by
  cases k with
  | eof => exact absurd rfl h
  | _ => rfl

theorem body_append {ws : List Token} (hws : ∀ t ∈ ws, t.kind ≠ .eof) (ts : List Token) :
    body (ws ++ ts) = ws ++ body ts := by
  apply List.takeWhile_append_of_pos
  intro t ht
  rw [isEof_eq_false (hws t ht)]
  rfl

theorem endColumn_append_eof {ws : List Token} (hws : ∀ t ∈ ws, t.kind ≠ .eof) (c : Nat) :
    endColumn (ws ++ [⟨.eof, c⟩]) = c := by
  have hnone : ws.find? (fun t ↦ t.kind.isEof) = none := by
    rw [List.find?_eq_none]
    intro t ht
    simp [isEof_eq_false (hws t ht)]
  rw [endColumn, List.find?_append, hnone]
  rfl

theorem exists_stop_of_ofTokens {ws : List Token} {c column : Nat} {what : Malformed}
    (hws : ∀ t ∈ ws, t.kind ≠ .eof)
    (h : ofTokens (ws ++ [⟨.eof, c⟩]) = .error (.malformed column what))
    (hwhat : ∀ limit, what ≠ .nestedTooDeep limit) :
    ∃ pre rest s w, ws = pre ++ rest ∧ column = Extent.columnOf ⟨ws.length, c⟩ rest ∧
      Reaches (.whole .formula) (maxNesting + 1) .start (kinds pre) s w ∧
      (s 0).Refuses (kinds rest).head? := by
  have hreport := (reports_level ⟨ws.length, c⟩ (maxNesting + 1)).2 ws le_rfl
  have hbody : body (ws ++ [⟨.eof, c⟩]) = ws := (body_append hws _).trans (List.append_nil _)
  rw [ofTokens, hbody, endColumn_append_eof hws] at h
  cases ws with
  | nil =>
      cases h
      obtain ⟨pre, rest, s, w, hts, hcolumn, hreach, hrefuses⟩ := hreport (by simp)
      obtain ⟨rfl, rfl⟩ := List.append_eq_nil_iff.1 hts.symm
      exact ⟨[], [], s, w, rfl, rfl, hreach, hrefuses 0⟩
  | cons t ws =>
      simp only [List.isEmpty_cons, Bool.false_eq_true, if_false] at h
      cases hread : (level ⟨(t :: ws).length, c⟩ (maxNesting + 1)).formula (t :: ws) with
      | error e =>
          rw [hread] at h hreport
          cases h
          obtain ⟨pre, rest, s, w, hts, hcolumn, hreach, hrefuses⟩ := hreport hwhat
          exact ⟨pre, rest, s, w, hts, hcolumn, hreach, hrefuses 0⟩
      | ok read =>
          obtain ⟨e, rest⟩ := read
          rw [hread] at h hreport
          obtain ⟨pre, q, hts, hq, hreach, hleaves⟩ := hreport
          cases rest with
          | nil => cases h
          | cons t' rest =>
              cases h
              exact ⟨pre, t' :: rest, _, [], hts, rfl, hreach, hleaves.step_eq_none hq fun _ ↦ rfl⟩

theorem ofTokens_append_ne_ok {pre : List Token} {s : Spot} (hpre : ∀ t ∈ pre, t.kind ≠ .eof)
    (hrun : Spot.run ⟨.start, 0⟩ (kinds pre) = some s) (ts : List Token)
    (hrefuses : s.Refuses (kinds (body ts)).head?) (e : Expr) : ofTokens (pre ++ ts) ≠ .ok e := by
  intro hok
  obtain ⟨-, D, hyield, -⟩ := exists_derivation_of_ofTokens hok
  rw [body_append hpre, kinds, List.map_append] at hyield
  exact D.yield_ne_of_refuses hrun hrefuses hyield

theorem exists_ofTokens_of_reaches {pre : List Token} {s : Nat → Spot} {w : List Kind}
    (h : Reaches (.whole .formula) (maxNesting + 1) .start (kinds pre) s w) :
    ∃ more e, ofTokens (pre ++ more) = .ok e := by
  obtain ⟨D, hyield, hnesting⟩ := h.derives
  have hkinds : kinds (body (pre ++ w.map (⟨·, 0⟩))) = kinds pre ++ w := by
    have heof := D.eof_not_mem_yield
    rw [hyield] at heof
    have hmap : kinds (pre ++ w.map (⟨·, 0⟩)) = kinds pre ++ w := by simp [Function.comp_def]
    rw [kinds_body, hmap, List.takeWhile_eq_self_iff]
    intro k hk
    rw [decide_eq_true_eq]
    rintro rfl
    exact heof hk
  exact ⟨_, exists_ofTokens_of_derivation (hkinds ▸ h.names) (hyield.trans hkinds.symm)
    (Nat.lt_succ_iff.1 hnesting)⟩

/-- If the tokens of a text are refused, and not because of their nesting, then the column of the
error is that of a token such that the tokens before it can be completed to a formula, and cannot be
with it behind them. At the end, the tokens before it are no formula. -/
theorem malformed_at_first_dead_token {text : String} {ts : List Token} {column : Nat}
    {what : Malformed} (hlex : lex text = .ok ts)
    (h : ofTokens ts = .error (.malformed column what))
    (hwhat : ∀ limit, what ≠ .nestedTooDeep limit) :
    ∃ before t after, ts = before ++ t :: after ∧ t.column = column ∧
      (∃ more e, ofTokens (before ++ more) = .ok e) ∧
      (∀ more e, ofTokens (before ++ t :: more) ≠ .ok e) ∧
      (t.kind = .eof → ∀ e, ofTokens before ≠ .ok e) := by
  obtain ⟨ps, -, htiles, rfl⟩ := exists_tiles_of_lex hlex
  have hws : ∀ t ∈ tokens ps, t.kind ≠ .eof := fun t ht ↦ htiles.kind_ne_eof ht
  obtain ⟨pre, rest, s, w, hts, rfl, hreach, hrefuses⟩ := exists_stop_of_ofTokens hws h hwhat
  have hpre : ∀ t ∈ pre, t.kind ≠ .eof :=
    fun t ht ↦ hws t (hts ▸ List.mem_append_left rest ht)
  have hrun := hreach.run 0
  have hmore := exists_ofTokens_of_reaches hreach
  cases rest with
  | nil =>
      rw [List.append_nil] at hts
      subst hts
      refine ⟨tokens ps, _, [], rfl, rfl, hmore, fun more ↦ ?_, fun _ e hok ↦ ?_⟩
      · exact ofTokens_append_ne_ok hpre hrun (_ :: more) hrefuses
      · rw [← List.append_nil (tokens ps)] at hok
        exact ofTokens_append_ne_ok hpre hrun [] hrefuses e hok
  | cons t rest =>
      have ht : t.kind ≠ .eof := hws t (hts ▸ List.mem_append_right pre List.mem_cons_self)
      refine ⟨pre, t, rest ++ [⟨.eof, 1 + text.toList.length⟩], ?_, rfl, hmore, fun more ↦ ?_,
        fun heq ↦ absurd heq ht⟩
      · rw [hts, List.append_assoc, List.cons_append]
      · have hbody : body ([t] ++ more) = [t] ++ body more :=
          body_append (by simpa using ht) more
        apply ofTokens_append_ne_ok hpre hrun ([t] ++ more)
        rw [hbody]
        exact hrefuses

theorem malformed_at_first_dead_token_of_second_argument :
    ∃ ts, lex "-sin(x y)" = .ok ts ∧ ∃ before t after, ts = before ++ t :: after ∧ t.column = 8 ∧
      (∃ more e, ofTokens (before ++ more) = .ok e) ∧
      ∀ more e, ofTokens (before ++ t :: more) ≠ .ok e := by
  have hlex : lex "-sin(x y)" = .ok [⟨.minus, 1⟩, ⟨.ident "sin", 2⟩, ⟨.lparen, 5⟩, ⟨.ident "x", 6⟩,
      ⟨.ident "y", 8⟩, ⟨.rparen, 9⟩, ⟨.eof, 10⟩] := by
    cbv
  have hread : ofTokens [⟨.minus, 1⟩, ⟨.ident "sin", 2⟩, ⟨.lparen, 5⟩, ⟨.ident "x", 6⟩,
      ⟨.ident "y", 8⟩, ⟨.rparen, 9⟩, ⟨.eof, 10⟩] = .error (.malformed 8 .expectedClose) :=
    rfl
  obtain ⟨before, t, after, hts, hcolumn, hmore, hdead, -⟩ :=
    malformed_at_first_dead_token hlex hread (by simp)
  exact ⟨_, hlex, before, t, after, hts, hcolumn, hmore, hdead⟩

end Expr

end Formula
