import InfixTree.Proofs.Reading

/-!
What strict mode makes of a grouped tree with clashes: everything in front of the first clash is
read as in lenient mode, and its later operator ends the reading. The level that raises the error
may lie deep inside the line; the levels around it pass the error on.
-/
namespace InfixTree.Parse

/-- The error that the tokens lead to does not depend on where they stand. -/
def Fails (mode : Mode) (l : Level) (tokens : List Token) (error : ParseError) : Prop :=
  ∀ i around rest, (read mode ⟨i, l, around⟩ (tokens ++ rest)).outcome = .error error

theorem fails_operator {mode : Mode} {l : Level} {t : Token} {spelling : String}
    {error : ParseError} (kind : t.kind = .operator spelling)
    (refused : (l.operator mode ⟨spelling, t.location⟩).outcome = .error error) :
    Fails mode l [t] error := by
  intro i around rest
  rw [List.singleton_append, read_operator kind, refused]
  rfl

theorem Takes.fails {mode : Mode} {l m : Level} {ts us : List Token} {error : ParseError}
    (taken : Takes mode l ts m) (fails : Fails mode m us error) : Fails mode l (ts ++ us) error := by
  intro i around rest
  rw [List.append_assoc, read_of_takes taken]
  exact fails _ around rest

theorem fails_inside {mode : Mode} {l : Level} {t : Token} {ts : List Token} {error : ParseError}
    (opens : t.kind = .opening) (fails : Fails mode .empty ts error) :
    Fails mode l (t :: ts) error := by
  intro i around rest
  rw [List.cons_append, read_opening opens]
  exact fails _ _ rest

theorem parse_of_fails {mode : Mode} {tokens : List Token} {error : ParseError}
    (fails : Fails mode .empty tokens error) (rest : List Token) :
    parse mode (tokens ++ rest) = .error error := by
  rw [parse_eq_bind, parseFrom_eq_read, List.drop_zero, fails 0 [] rest]
  rfl

/-- Strict reading from the token of index `index` on ends at the later operator of the clash. -/
def StopsAt (l : Level) (tokens : List Token) (index : Nat) (c : Expr.Clash) : Prop :=
  ∃ before t after, tokens = before ++ t :: after ∧ c.index = index + before.length ∧
    Fails .strict l (before ++ [t]) (.nonAssociativeChain c.left c.right t.location)

namespace StopsAt

variable {l m : Level} {ts us : List Token} {index : Nat} {c : Expr.Clash}

theorem extend (stops : StopsAt l ts index c) : StopsAt l (ts ++ us) index c := by
  obtain ⟨before, t, after, rfl, place, fails⟩ := stops
  exact ⟨before, t, after ++ us, by simp, place, fails⟩

theorem of_takes (taken : Takes .strict l ts m) (stops : StopsAt m us (index + ts.length) c) :
    StopsAt l (ts ++ us) index c := by
  obtain ⟨before, t, after, rfl, place, fails⟩ := stops
  refine ⟨ts ++ before, t, after, by simp, ?_, ?_⟩
  · rw [place, List.length_append, Nat.add_assoc]
  · rw [List.append_assoc]
    exact taken.fails fails

theorem inside {t : Token} (opens : t.kind = .opening) (stops : StopsAt .empty ts (index + 1) c) :
    StopsAt l (t :: ts) index c := by
  obtain ⟨before, u, after, rfl, place, fails⟩ := stops
  refine ⟨t :: before, u, after, rfl, ?_, fails_inside opens fails⟩
  rw [place, List.length_cons]
  omega

theorem here {t : Token} {spelling : String} (kind : t.kind = .operator spelling)
    (refused : (l.operator .strict ⟨spelling, t.location⟩).outcome =
      .error (.nonAssociativeChain c.left c.right t.location)) (place : c.index = index) :
    StopsAt l (t :: ts) index c :=
  ⟨[], t, ts, rfl, place, fails_operator kind refused⟩

end StopsAt

namespace Level

/-- The operator clashes with the one its left operand is made with, after the reductions above
that one. -/
theorem operator_of_left_clash {l m : Level} {d e : Expr} {q : String} {p : Pending}
    (grouped : (Expr.binary d p.spelling e).Grouped) (unchained : d.Unchained)
    (holds : Holds d l.operators l.output m.operators m.closed.output) (root : d.operator? = some q)
    (clash : (Fixity.lookup q).clashes p.fixity) :
    (m.operator .strict p).outcome = .error (.nonAssociativeChain q p.spelling p.location) := by
  obtain ⟨gd, -, before, -⟩ := Expr.grouped_binary.mp grouped
  have goes := before q root
  generalize hops : m.operators = operators at holds
  generalize hout : m.closed.output = output at holds
  cases holds with
  | operand plain => simp [plain] at root
  | @binary a b w _ _ _ _ right =>
    obtain rfl := Option.some.inj root
    obtain ⟨-, gb, -, waits⟩ := Expr.grouped_binary.mp gd
    have reduces := Expr.edge_reduces gb
      (fun k hk => Fixity.reducesBefore_of_waits goes (waits k hk))
    rw [operator_outcome, hops, hout, reduceBefore_of_holds right reduces
      (fun _ => Expr.edge_unchained gd unchained goes), reduceBefore_of_clash clash]
    rfl

/-- The operator clashes with the one that its level waits with below its left operand. -/
theorem operator_of_waiting_clash {l m : Level} {d e : Expr} {w p : Pending}
    (grouped : (Expr.binary d p.spelling e).Grouped)
    (apart : ∀ q ∈ d.edge, (Fixity.lookup q).clashes p.fixity = false)
    (holds : Holds d l.operators l.output m.operators m.closed.output)
    (head : w ∈ l.operators.head?) (clash : w.fixity.clashes p.fixity) :
    (m.operator .strict p).outcome =
      .error (.nonAssociativeChain w.spelling p.spelling p.location) := by
  obtain ⟨gd, -, before, -⟩ := Expr.grouped_binary.mp grouped
  obtain ⟨below, hops⟩ : ∃ below, l.operators = w :: below := by
    cases h : l.operators with
    | nil => simp [h] at head
    | cons top below =>
      obtain rfl : top = w := by simpa [h] using head
      exact ⟨below, rfl⟩
  rw [operator_outcome, reduceBefore_of_holds holds (Expr.edge_reduces gd before) (fun _ => apart),
    hops, reduceBefore_of_clash clash]
  rfl

end Level

/-- The spelling of the operator that the level waits with. -/
def Level.waiting (l : Level) : Option String := l.operators.head?.map (·.spelling)

/-- How a strict level ends when the tree it reads has clashes, and when an argument has. -/
structure Refused (e : Expr) : Prop where
  held : ∀ tokens, kinds tokens = e.spelling → ∀ l : Level, l.application = none → l.Waits e →
    ∀ index c rest, e.clashes l.waiting index = c :: rest → StopsAt l tokens index c
  argument : e.isAtom → ∀ tokens, kinds tokens = e.spelling → ∀ (l : Level) (index : Nat)
    (c : Expr.Clash) (rest : List Expr.Clash), e.clashes none index = c :: rest →
      StopsAt l tokens index c

theorem clashes_waiting_left {l : Level} {d e : Expr} {o : String} (index : Nat)
    (waits : l.Waits (.binary d o e)) (grouped : (Expr.binary d o e).Grouped) :
    d.clashes l.waiting index = d.clashes none index := by
  refine Expr.clashes_of_apart index fun w hw p hp => ?_
  obtain ⟨q, hq, rfl⟩ := Option.map_eq_some_iff.mp hw
  exact Level.apart_left waits grouped q hq p hp

theorem unchained_of_clashes {e : Expr} {waiting : Option String} {index : Nat}
    (none : e.clashes waiting index = []) : e.Unchained :=
  ((Expr.clashes_eq_nil_iff e waiting index).mp none).1

theorem refused_arguments {args : List Expr} (atoms : ∀ a ∈ args, a.isAtom ∧ a.Applied ∧ a.Grouped)
    (refused : ∀ a ∈ args, Refused a) {tokens : List Token}
    (spelled : kinds tokens = Expr.spellings args) {l : Level}
    (opened : ∃ app, l.application = some app) {index : Nat}
    {c : Expr.Clash} {rest : List Expr.Clash} (clash : Expr.clashesAll index args = c :: rest) :
    StopsAt l tokens index c := by
  induction args generalizing tokens l index with
  | nil => simp [Expr.clashesAll] at clash
  | cons a others ih =>
    obtain ⟨ts, us, rfl, hts, hus⟩ := kinds_eq_append spelled
    obtain ⟨atom, applied, grouped⟩ := atoms a (by simp)
    rcases List.append_eq_cons_iff.mp clash with ⟨calm, later⟩ | ⟨_, first, _⟩
    · have taken : Taken .strict a := taken_of_grouped applied grouped
        (fun _ => unchained_of_clashes calm)
      obtain ⟨app, open_⟩ := opened
      rw [← hts, length_kinds] at later
      refine .of_takes (taken.argument atom ts hts l app open_) ?_
      refine ih (fun b hb => atoms b (by simp [hb])) (fun b hb => refused b (by simp [hb])) hus ?_
        later
      exact ⟨⟨app.callee, app.args ++ [a]⟩, by rw [Level.operand_of_some open_]⟩
    · exact ((refused a (by simp)).argument atom ts hts l index c _ first).extend

/-- The operator is the first that may clash, with what its left operand is made with or with the
one that its level waits with; behind it comes the right operand. -/
theorem stopsAt_operator {d e : Expr} {o : String} (grouped : (Expr.binary d o e).Grouped)
    (unchained : d.Unchained) (right : Refused e) {l m : Level} (waits : l.Waits (.binary d o e))
    (holds : Holds d l.operators l.output m.operators m.closed.output) {t : Token}
    {ts : List Token} (kind : t.kind = .operator o) (spelled : kinds ts = e.spelling) {here : Nat}
    {c : Expr.Clash} {rest : List Expr.Clash}
    (clash : Expr.link here d.operator? (some o) ++ (Expr.link here l.waiting (some o) ++
      e.clashes (some o) (here + 1)) = c :: rest) : StopsAt m (t :: ts) here c := by
  obtain ⟨-, -, -, after⟩ := Expr.grouped_binary.mp grouped
  let p : Pending := ⟨o, t.location⟩
  rcases List.append_eq_cons_iff.mp clash with ⟨low, later⟩ | ⟨_, first, _⟩
  · have apart := Expr.left_edge_unchained grouped unchained
      (fun q hq => Expr.link_eq_nil_iff.mp low q hq o rfl)
    rcases List.append_eq_cons_iff.mp later with ⟨high, later⟩ | ⟨_, first, _⟩
    · have pushed : (m.operator .strict p).outcome = .ok ⟨d :: l.output, p :: l.operators, .none⟩ :=
        Level.operator_of_holds grouped holds waits (fun _ => ⟨fun w hw q hq =>
          Expr.link_eq_nil_iff.mp high w.spelling
            (Option.map_eq_some_iff.mpr ⟨w, hw, rfl⟩) q hq, apart⟩)
      have taken : Takes .strict m [t] ⟨d :: l.output, p :: l.operators, .none⟩ :=
        .operator kind pushed (.nil _)
      exact .of_takes taken (right.held ts spelled _ rfl
        (by simpa [Level.Waits, Pending.fixity, p] using after) _ c rest later)
    · obtain ⟨root, same, place, clashing⟩ := Expr.link_eq_cons first
      obtain rfl := Option.some.inj same
      obtain ⟨w, head, left⟩ := Option.map_eq_some_iff.mp root
      rw [← left] at clashing
      exact .here kind (left ▸ Level.operator_of_waiting_clash (p := p) grouped apart holds head
        clashing) place
  · obtain ⟨root, same, place, clashing⟩ := Expr.link_eq_cons first
    obtain rfl := Option.some.inj same
    exact .here kind
      (Level.operator_of_left_clash (p := p) grouped unchained holds root clashing) place

theorem refused_binary {d e : Expr} {o : String} (applied : d.Applied)
    (grouped : (Expr.binary d o e).Grouped) (left : Refused d) (right : Refused e) :
    Refused (.binary d o e) := by
  refine ⟨fun tokens spelled l none waits index c rest clash => ?_, by simp [Expr.isAtom]⟩
  obtain ⟨ts, us, rfl, hts, hus⟩ := kinds_eq_append spelled
  obtain ⟨t, vs, rfl, kind, hvs⟩ := kinds_eq_cons hus
  rcases List.append_eq_cons_iff.mp clash with ⟨calm, later⟩ | ⟨_, first, _⟩
  · have unchained := unchained_of_clashes calm
    have taken : Taken .strict d :=
      taken_of_grouped applied (Expr.grouped_binary.mp grouped).1 (fun _ => unchained)
    obtain ⟨m, takes, holds⟩ := taken.held ts hts l none (Level.waits_left waits grouped)
      (fun _ => Level.apart_left waits grouped)
    rw [← hts, length_kinds] at later
    exact .of_takes takes (stopsAt_operator grouped unchained right waits holds kind hvs later)
  · rw [← clashes_waiting_left index waits grouped] at first
    exact (left.held ts hts l none (Level.waits_left waits grouped) index c _ first).extend

theorem refused_of_grouped {e : Expr} (applied : e.Applied) (grouped : e.Grouped) : Refused e := by
  induction e with
  | number value => exact ⟨fun _ _ _ _ _ _ _ _ clash => by simp [Expr.clashes] at clash,
      fun _ _ _ _ _ _ _ clash => by simp [Expr.clashes] at clash⟩
  | identifier name => exact ⟨fun _ _ _ _ _ _ _ _ clash => by simp [Expr.clashes] at clash,
      fun _ _ _ _ _ _ _ clash => by simp [Expr.clashes] at clash⟩
  | application callee args _ ih =>
    obtain ⟨⟨name, rfl⟩, -, atoms⟩ := Expr.applied_application.mp applied
    have argsGrouped := (Expr.grouped_application.mp grouped).2
    refine ⟨fun tokens spelled l none _ index c rest clash => ?_, by simp [Expr.isAtom]⟩
    obtain ⟨t, us, rfl, kind, hus⟩ := kinds_eq_cons spelled
    have entered : Takes .strict l [t] { l with application := some ⟨name, []⟩ } := by
      rw [← Level.identifier_of_none none]
      exact .identifier kind (.nil _)
    exact .of_takes entered (refused_arguments
      (fun a ha => ⟨(atoms a ha).1, (atoms a ha).2, argsGrouped a ha⟩)
      (fun a ha => ih a ha (atoms a ha).2 (argsGrouped a ha)) hus ⟨_, rfl⟩ clash)
  | parenthesized inner ih =>
    have refused := ih (by simpa using applied) (by simpa using grouped)
    have stops : ∀ tokens, kinds tokens = (Expr.parenthesized inner).spelling → ∀ (l : Level)
        index c rest, inner.clashes none (index + 1) = c :: rest → StopsAt l tokens index c := by
      intro tokens spelled l index c rest clash
      obtain ⟨t, us, rfl, opens, hus⟩ := kinds_eq_cons spelled
      obtain ⟨ts, last, rfl, hts, -⟩ := kinds_eq_append hus
      exact .inside opens (refused.held ts hts .empty rfl (by simp [Level.Waits, Level.empty]) _ c
        rest clash).extend
    exact ⟨fun tokens spelled l _ _ index c rest clash => stops tokens spelled l index c rest clash,
      fun _ tokens spelled l index c rest clash => stops tokens spelled l index c rest clash⟩
  | binary left o right ihl ihr =>
    obtain ⟨al, ar⟩ := Expr.applied_binary.mp applied
    obtain ⟨gl, gr, -, -⟩ := Expr.grouped_binary.mp grouped
    exact refused_binary al grouped (ihl al gl) (ihr ar gr)

theorem parse_strict_of_clashes {e : Expr} {tokens : List Token} (reads : e.Reads (kinds tokens))
    {c : Expr.Clash} {rest : List Expr.Clash} (clash : e.clashes none 0 = c :: rest) :
    ∃ t, tokens[c.index]? = some t ∧
      parse .strict tokens = .error (.nonAssociativeChain c.left c.right t.location) := by
  obtain ⟨before, t, after, rfl, place, fails⟩ :=
    (refused_of_grouped reads.applied reads.grouped).held tokens reads.spelled.symm .empty rfl
      (by simp [Level.Waits, Level.empty]) 0 c rest clash
  refine ⟨t, by simp [place], ?_⟩
  rw [List.append_cons]
  exact parse_of_fails fails after

end InfixTree.Parse
