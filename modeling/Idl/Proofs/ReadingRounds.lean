import Idl.Proofs.SoundScripts

/-! Every round of reading takes a token or ends its loop, with one exception: a list
of members that has come to the closing mark of another list tries it again and again.
So reading a file comes to an end unless such a round is started, and for the same
reason it does so within the steps that `Script.read` allows. -/
namespace Idl

namespace Syntax

open Idl.Syntax.Parser

/-! ### Loops -/

/-- A reader that goes round: what one round does, given what follows it. -/
structure Loop where
  Carried : Type
  Result : Type
  run : Nat → Carried → Parser Result
  round : Nat → (Carried → Parser Result) → Carried → Parser Result
  unrolled : ∀ n carried, run (n + 1) carried = round n (run n) carried

namespace Loop

def items (topLevel : Bool) : Loop where
  Carried := Unit
  Result := List Item
  run := fun n _ => Parser.items topLevel n
  round := fun n again _ => do
    let kind ← kind
    if kind = .endOfFile ∨ (kind = .mark .closeBrace ∧ ¬ topLevel) then return []
    else
      match ← attempt (item topLevel n) with
      | none =>
        Parser.skipStatement topLevel n 0 false
        again ()
      | some none => again ()
      | some (some head) =>
        match head with
        | .space ⟨_, _, true, _⟩ _ => return [head]
        | _ =>
          let tail ← again ()
          return head :: tail
  unrolled := fun _ _ => rfl

def operations : Loop where
  Carried := Unit
  Result := List OperationDecl
  run := fun n _ => interfaceMembers n
  round := fun n again _ => do
    let kind ← kind
    if kind = .mark .closeBrace ∨ kind = .endOfFile then return []
    else
      match ← attempt (interfaceMember n) with
      | some head =>
        let tail ← again ()
        return head :: tail
      | none =>
        Parser.skipStatement false n 0 false
        again ()
  unrolled := fun _ _ => rfl

def members (close : Mark) : Loop where
  Carried := Unit
  Result := List Member
  run := fun n _ => Parser.members close n
  round := fun n again _ => do
    update (·.startRound close)
    let kind ← kind
    if kind = .mark close ∨ kind = .endOfFile then return []
    else
      match ← attempt (member close n) with
      | some head =>
        let tail ← again ()
        return head :: tail
      | none =>
        Parser.skipMember close n 0
        again ()
  unrolled := fun _ _ => rfl

def decorators : Loop where
  Carried := Unit
  Result := List DecoratorExpr
  run := fun n _ => Parser.decorators n
  round := fun n again _ => do
    let start := (← current).span
    if ← eat (.mark .atSign) then
      let path ← path anyName n
      let args ←
        if ← eat (.mark .openParen) then do
          let args ← decoratorArgs n
          let _ ← expect (.mark .closeParen)
          Parser.pure args
        else Parser.pure []
      let head := DecoratorExpr.use path args (← spanFrom start)
      let tail ← again ()
      return head :: tail
    else return []
  unrolled := fun _ _ => rfl

def decoratorArgs : Loop where
  Carried := Unit
  Result := List DecoratorArg
  run := fun n _ => Parser.decoratorArgs n
  round := fun n again _ => do
    if ← check (.mark .closeParen) then return []
    else
      let head ← decoratorArg n
      if ← eat (.mark .comma) then
        let tail ← again ()
        return head :: tail
      else return [head]
  unrolled := fun _ _ => rfl

def templateParams : Loop where
  Carried := Unit
  Result := List TemplateParam
  run := fun n _ => templateParamList n
  round := fun n again _ => do
    let name ← ident
    let default ←
      if ← eat (.mark .equals) then do
        let type ← typeExpr n
        Parser.pure (some type)
      else Parser.pure none
    let head : TemplateParam := ⟨name, default, ← spanFrom name.span⟩
    if ← eat (.mark .comma) then
      let tail ← again ()
      return head :: tail
    else
      let _ ← expect (.mark .greater)
      return [head]
  unrolled := fun _ _ => rfl

def options : Loop where
  Carried := Unit
  Result := List TypeExpr
  run := fun n _ => Parser.options n
  round := fun n again _ => do
    if ← eat (.mark .bar) then
      let head ← primary n
      let tail ← again ()
      return head :: tail
    else return []
  unrolled := fun _ _ => rfl

def typeArgs : Loop where
  Carried := Unit
  Result := List TypeExpr
  run := fun n _ => Parser.typeArgs n
  round := fun n again _ => do
    if ← check (.mark .greater) then return []
    else
      let head ← typeExpr n
      if ← eat (.mark .comma) then
        let tail ← again ()
        return head :: tail
      else return [head]
  unrolled := fun _ _ => rfl

def arraySuffix (start : Span) : Loop where
  Carried := TypeExpr
  Result := TypeExpr
  run := Parser.arraySuffix start
  round := fun _ again type => do
    if ← eat (.mark .openBracket) then
      let _ ← expect (.mark .closeBracket)
      again (.array type (← spanFrom start))
    else return type
  unrolled := fun _ _ => rfl

def pathTail (name : Parser Ident) : Loop where
  Carried := Unit
  Result := List Ident
  run := fun n _ => Parser.pathTail name n
  round := fun _ again _ => do
    if ← eat (.mark .dot) then
      let head ← name
      let tail ← again ()
      return head :: tail
    else return []
  unrolled := fun _ _ => rfl

/-- The depth and whether a token has been skipped already are carried along. -/
def skipStatement (topLevel : Bool) : Loop where
  Carried := Nat × Bool
  Result := Unit
  run := fun n x => Parser.skipStatement topLevel n x.1 x.2
  round := fun _ again x => do
    match ← kind with
    | .endOfFile => return
    | .mark .semicolon =>
      let _ ← advance
      if x.1 = 0 then return else again (x.1, true)
    | .mark .openBrace =>
      let _ ← advance
      again (x.1 + 1, true)
    | .mark .closeBrace =>
      if x.1 = 0 then
        if topLevel ∧ ¬ x.2 then
          let _ ← advance
      else
        let _ ← advance
        if x.1 = 1 then return else again (x.1 - 1, true)
    | .keyword .kwModel | .keyword .kwOp | .keyword .kwInterface | .keyword .kwNamespace
    | .keyword .kwImport | .keyword .kwUsing | .mark .atSign =>
      if x.1 = 0 ∧ x.2 then return
      else
        let _ ← advance
        again (x.1, true)
    | _ =>
      let _ ← advance
      again (x.1, true)
  unrolled := fun _ _ => rfl

/-- The depth is carried along. -/
def skipMember (close : Mark) : Loop where
  Carried := Nat
  Result := Unit
  run := Parser.skipMember close
  round := fun _ again depth => do
    let kind ← kind
    if kind = .endOfFile then return
    else if kind = .mark close ∧ depth = 0 then return
    else if (kind = .mark .semicolon ∨ kind = .mark .comma) ∧ depth = 0 then
      let _ ← advance
    else if kind = .mark .openBrace ∨ kind = .mark .openParen then
      let _ ← advance
      again (depth + 1)
    else if kind = .mark .closeBrace ∨ kind = .mark .closeParen then
      if depth = 0 then return
      else
        let _ ← advance
        again (depth - 1)
    else
      let _ ← advance
      again depth
  unrolled := fun _ _ => rfl

end Loop

/-- The loops of the readers. -/
inductive LoopName where
  | items (topLevel : Bool)
  | operations
  | members (close : Mark)
  | decorators
  | decoratorArgs
  | templateParams
  | options
  | typeArgs
  | arraySuffix (start : Span)
  | identPath
  | namePath
  | skipStatement (topLevel : Bool)
  | skipMember (close : Mark)

def LoopName.loop : LoopName → Loop
  | items topLevel => .items topLevel
  | operations => .operations
  | members close => .members close
  | decorators => .decorators
  | decoratorArgs => .decoratorArgs
  | templateParams => .templateParams
  | options => .options
  | typeArgs => .typeArgs
  | arraySuffix start => .arraySuffix start
  | identPath => .pathTail ident
  | namePath => .pathTail anyName
  | skipStatement topLevel => .skipStatement topLevel
  | skipMember close => .skipMember close

/-! ### Rounds -/

section
variable {s : State}

/-- The round ends its loop: the reply does not depend on what would follow. -/
def Leaves (round : (C → Parser R) → Parser R) (s : State) : Prop :=
  ∃ reply, ∀ again, round again s = reply

/-- The round comes to another one, in the state `t`. -/
def Continues (round : (C → Parser R) → Parser R) (s t : State) : Prop :=
  ∃ (next : C) (finish : Reply R → Reply R), ∀ again, round again s = finish (again next t)

/-- A round that ends its loop, or leaves fewer tokens than a bound for the next one. -/
def Advances (bound : Nat) (round : (C → Parser R) → Parser R) (s : State) : Prop :=
  Leaves round s ∨ ∃ t : State, t.left < bound ∧ Continues round s t

namespace Advances

theorem leaves (p : Parser R) : Advances bound (fun _ : C → Parser R => p) s :=
  Or.inl ⟨p s, fun _ => rfl⟩

theorem again (next : C) (below : s.left < bound) :
    Advances bound (fun again : C → Parser R => again next) s :=
  Or.inr ⟨s, below, next, id, fun _ => rfl⟩

theorem again_bind (next : C) (f : R → Parser R) (below : s.left < bound) :
    Advances bound (fun again => again next >>= f) s :=
  Or.inr ⟨s, below, next, fun reply => Parser.bind (fun _ => reply) f s, fun _ => rfl⟩

/-- A reader that comes before. -/
theorem bind {f : (C → Parser R) → β → Parser R}
    (rest : ∀ value t, p s = .done value t → Advances bound (fun again => f again value) t) :
    Advances bound (fun again => p >>= f again) s := by
  cases ran : p s with
  | done value t =>
    have same (again : C → Parser R) : (p >>= f again) s = f again value t := run_of_done ran
    rcases rest value t ran with ⟨reply, ended⟩ | ⟨u, below, next, finish, goes⟩
    · exact Or.inl ⟨reply, fun again => (same again).trans (ended again)⟩
    · exact Or.inr ⟨u, below, next, finish, fun again => (same again).trans (goes again)⟩
  | broken t => exact Or.inl ⟨.broken t, fun _ => run_of_broken ran⟩
  | exhausted t => exact Or.inl ⟨.exhausted t, fun _ => run_of_exhausted ran⟩

/-- A step that always succeeds. -/
theorem after {f : (C → Parser R) → β → Parser R} (ran : p s = .done value t)
    (rest : Advances bound (fun again => f again value) t) :
    Advances bound (fun again => p >>= f again) s := by
  refine bind fun other u went => ?_
  cases ran.symm.trans went
  exact rest

theorem attempt {f : (C → Parser R) → Option β → Parser R}
    (kept : ∀ value t, p s = .done value t → Advances bound (fun again => f again (some value)) t)
    (lost : ∀ t, p s = .broken t → Advances bound (fun again => f again none) t) :
    Advances bound (fun again => Parser.attempt p >>= f again) s := by
  cases ran : p s with
  | done value t => exact after (attempt_of_done ran) (kept value t ran)
  | broken t => exact after (attempt_of_broken ran) (lost t ran)
  | exhausted t => exact Or.inl ⟨.exhausted t, fun _ => run_of_exhausted (attempt_of_exhausted ran)⟩

theorem ite [Decidable condition] (holds : condition → Advances bound yes s)
    (fails : ¬ condition → Advances bound no s) :
    Advances bound (fun again => if condition then yes again else no again) s := by
  by_cases is : condition
  · simpa only [if_pos is] using holds is
  · simpa only [if_neg is] using fails is

theorem advance {f : (C → Parser R) → Token → Parser R} (inside : s.Within source)
    (more : s.current.kind ≠ .endOfFile)
    (rest : s.advance.Within source → s.advance.left + 1 = s.left →
      Advances bound (fun again => f again s.current) s.advance) :
    Advances bound (fun again => Parser.advance >>= f again) s :=
  after rfl (rest (inside.advance more) (State.left_advance inside more))

theorem expect {kind : TokenKind} {f : (C → Parser R) → Token → Parser R} (inside : s.Within source)
    (other : kind ≠ .endOfFile)
    (rest : ∀ token, s.advance.Within source → s.advance.left + 1 = s.left →
      Advances bound (fun again => f again token) s.advance) :
    Advances bound (fun again => Parser.expect kind >>= f again) s := by
  refine bind fun token t ran => ?_
  unfold Parser.expect at ran
  split at ran
  · rename_i is
    cases ran
    have more : s.current.kind ≠ .endOfFile := is ▸ other
    exact rest _ (inside.advance more) (State.left_advance inside more)
  · cases ran

/-- What follows depends on whether a token stands here, which is taken. -/
theorem eat {kind : TokenKind} (inside : s.Within source) (other : kind ≠ .endOfFile)
    (taken : s.advance.Within source → s.advance.left + 1 = s.left → Advances bound yes s.advance)
    (missing : Advances bound no s) :
    Advances bound (fun again => Parser.eat kind >>= fun found =>
      if found = true then yes again else no again) s := by
  refine bind fun found t ran => ?_
  unfold Parser.eat at ran
  split at ran
  · rename_i is
    cases ran
    have more : s.current.kind ≠ .endOfFile := is ▸ other
    simpa using taken (inside.advance more) (State.left_advance inside more)
  · cases ran
    simpa using missing

end Advances

/-- What a reader leaves when it gives a value. -/
theorem Parser.Reads.left_of_done (reads : Reads source Any post text taken budget p p)
    (inside : s.Within source) (ran : p s = .done value t) :
    t.Within source ∧ t.left + taken ≤ s.left := by
  have lands := (reads s inside trivial).1.lands
  rw [ran] at lands
  exact ⟨lands.reaches.within inside, (lands.value value t rfl).2⟩

/-- After a reader that broke off, skipping has taken a token. -/
theorem Parser.Reads.left_of_skip (tried : Reads source Any post text taken budget p p)
    (passes : Reads source Any Any AnyText 0 larger skip skip)
    (skips : Reads source (· = s.current) Any AnyText 1 larger skip skip) (inside : s.Within source)
    (broke : p s = .broken t) (ran : skip t = .done () u) : u.left < s.left := by
  have lands := (tried s inside trivial).1.lands
  rw [broke] at lands
  have reaches : s.Reaches source t := lands.reaches
  have within := reaches.within inside
  have less := reaches.left_le
  by_cases took : t.left < s.left
  · have := (passes.left_of_done within ran).2
    omega
  · have stopped := (skips t within (reaches.current (by omega))).1.lands
    rw [ran] at stopped
    have := (stopped.value () u rfl).2
    omega

/-! ### The loops, one by one -/

variable (n : Nat) (inside : s.Within source)
include inside

theorem options_advances :
    Advances s.left (fun again => Loop.options.round n again ()) s := by
  refine .eat inside (by simp) (fun within took => .bind fun head t ran => ?_) (.leaves _)
  have := ((reading source (Nat.le_refl n)).primary.left_of_done within ran).2
  exact .again_bind () _ (by omega)

theorem typeArgs_advances :
    Advances s.left (fun again => Loop.typeArgs.round n again ()) s := by
  refine .after rfl (.ite (fun _ => .leaves _) fun _ => .bind fun head t ran => ?_)
  obtain ⟨within, took⟩ := (reading source (Nat.le_refl n)).typeExpr.left_of_done inside ran
  refine .eat within (by simp) (fun _ further => ?_) (.leaves _)
  exact .again_bind () _ (by omega)

theorem decoratorArgs_advances :
    Advances s.left (fun again => Loop.decoratorArgs.round n again ()) s := by
  refine .after rfl (.ite (fun _ => .leaves _) fun _ => .bind fun head t ran => ?_)
  obtain ⟨within, took⟩ := (reading source (Nat.le_refl n)).decoratorArg.left_of_done inside ran
  refine .eat within (by simp) (fun _ further => ?_) (.leaves _)
  exact .again_bind () _ (by omega)

theorem arraySuffix_advances (start : Span) (type : TypeExpr) :
    Advances s.left (fun again => (Loop.arraySuffix start).round n again type) s := by
  refine .eat inside (by simp) (fun within took => ?_) (.leaves _)
  refine .expect within (by simp) fun _ _ further => .after rfl ?_
  exact .again _ (by omega)

theorem pathTail_advances {name : Parser Ident} (reads : Reads source Any post text 1 0 name name) :
    Advances s.left (fun again => (Loop.pathTail name).round n again ()) s := by
  refine .eat inside (by simp) (fun within took => .bind fun head t ran => ?_) (.leaves _)
  have := (reads.left_of_done within ran).2
  exact .again_bind () _ (by omega)

theorem decorators_advances :
    Advances s.left (fun again => Loop.decorators.round n again ()) s := by
  refine .after rfl (.eat inside (by simp) (fun within took => ?_) (.leaves _))
  refine .bind fun path t ran => ?_
  obtain ⟨within, further⟩ :=
    (path_reads anyName_reads anyName_reads (Nat.le_refl n)).left_of_done within ran
  refine .eat within (by simp) (fun within more => .bind fun args u read => ?_)
    (.after rfl (.after rfl (.again_bind () _ (by omega))))
  obtain ⟨within, still⟩ := (reading source (Nat.le_refl n)).decoratorArgs.left_of_done within read
  refine .expect within (by simp) fun _ _ last => .after rfl (.after rfl ?_)
  exact .again_bind () _ (by omega)

theorem templateParams_advances :
    Advances s.left (fun again => Loop.templateParams.round n again ()) s := by
  refine .bind fun name t ran => ?_
  obtain ⟨within, took⟩ := (ident_reads 0).left_of_done inside ran
  have listed {u : State} (within : u.Within source) (less : u.left < s.left) (head : TemplateParam) :
      Advances s.left (fun again : Unit → Parser (List TemplateParam) => do
        if ← Parser.eat (.mark .comma) then
          let tail ← again ()
          return head :: tail
        else
          let _ ← Parser.expect (.mark .greater)
          return [head]) u :=
    .eat within (by simp) (fun _ further => .again_bind () _ (by omega)) (.leaves _)
  refine .eat within (by simp) (fun within more => .bind fun type u read => .after rfl (.after rfl ?_))
    (.after rfl (.after rfl (listed within (by omega) _)))
  obtain ⟨within, further⟩ := (reading source (Nat.le_refl n)).typeExpr.left_of_done within read
  exact listed within (by omega) _

theorem skipMember_advances (close : Mark) (depth : Nat) :
    Advances s.left (fun again => (Loop.skipMember close).round n again depth) s := by
  refine .after rfl (.ite (fun _ => .leaves _) fun more => ?_)
  have further (depth : Nat) :
      Advances s.left (fun again : Nat → Parser Unit => Parser.advance >>= fun _ => again depth) s :=
    .advance inside more fun _ took => .again _ (by omega)
  refine .ite (fun _ => .leaves _) fun _ => .ite (fun _ => .leaves _) fun _ => ?_
  refine .ite (fun _ => further _) fun _ => .ite (fun _ => ?_) fun _ => further _
  exact .ite (fun _ => .leaves _) fun _ => further _

theorem skipStatement_advances (topLevel : Bool) (x : Nat × Bool) :
    Advances s.left (fun again => (Loop.skipStatement topLevel).round n again x) s := by
  refine .after rfl ?_
  have further (more : s.current.kind ≠ .endOfFile) (x : Nat × Bool) :
      Advances s.left (fun again : Nat × Bool → Parser Unit => Parser.advance >>= fun _ => again x)
        s :=
    .advance inside more fun _ took => .again _ (by omega)
  have maybe (more : s.current.kind ≠ .endOfFile) :
      Advances s.left (fun again : Nat × Bool → Parser Unit =>
        if x.1 = 0 ∧ x.2 = true then Parser.pure () else
          Parser.advance >>= fun _ => again (x.1, true)) s :=
    .ite (fun _ => .leaves _) fun _ => further more _
  generalize stands : s.current.kind = kind
  cases kind with
  | endOfFile => exact .leaves _
  | keyword word =>
    cases word with
    | kwModel | kwOp | kwInterface | kwNamespace | kwImport | kwUsing =>
      exact maybe (by simp [stands])
    | _ => exact further (by simp [stands]) _
  | mark mark =>
    cases mark with
    | semicolon =>
      refine .advance inside (by simp [stands]) fun _ took => ?_
      exact .ite (fun _ => .leaves _) fun _ => .again _ (by omega)
    | openBrace => exact further (by simp [stands]) _
    | closeBrace =>
      refine .ite (fun _ => .leaves _) fun _ => .advance inside (by simp [stands]) fun _ took => ?_
      exact .ite (fun _ => .leaves _) fun _ => .again _ (by omega)
    | atSign => exact maybe (by simp [stands])
    | _ => exact further (by simp [stands]) _
  | _ => exact further (by simp [stands]) _

theorem operations_advances :
    Advances s.left (fun again => Loop.operations.round n again ()) s := by
  refine .after rfl (.ite (fun _ => .leaves _) fun going => ?_)
  rw [not_or] at going
  refine .attempt (fun head t ran => ?_) fun t broke => .bind fun _ u ran => ?_
  · have := ((interfaceMember_reads (Nat.le_refl n)).left_of_done inside ran).2
    exact .again_bind () _ (by omega)
  · refine .again () ((interfaceMember_reads (Nat.le_refl n)).left_of_skip
      (skipStatement_reads false 0 false (Nat.le_refl n)) ?_ inside broke ran)
    refine (skipStatement_takes false (Nat.le_refl n)).narrow ?_
    rintro _ rfl
    exact ⟨going.2, fun closes => absurd closes going.1⟩

theorem items_advances (topLevel : Bool) :
    Advances s.left (fun again => (Loop.items topLevel).round n again ()) s := by
  refine .after rfl (.ite (fun _ => .leaves _) fun going => ?_)
  rw [not_or, not_and] at going
  have tried := (readingItems source (Nat.le_refl n)).item topLevel
  refine .attempt (fun found t ran => ?_) fun t broke => .bind fun _ u ran => ?_
  · have := (tried.left_of_done inside ran).2
    cases found with
    | none => exact .again () (by omega)
    | some head =>
      have listed : Advances s.left (fun again : Unit → Parser (List Item) =>
          again () >>= fun tail => Parser.pure (head :: tail)) t := .again_bind () _ (by omega)
      cases head with
      | space head items =>
        obtain ⟨decorators, path, blockless, span⟩ := head
        cases blockless with
        | false => exact listed
        | true => exact .leaves _
      | _ => exact listed
  · refine .again () (tried.left_of_skip (skipStatement_reads topLevel 0 false (Nat.le_refl n)) ?_
      inside broke ran)
    refine (skipStatement_takes topLevel (Nat.le_refl n)).narrow ?_
    rintro _ rfl
    exact ⟨going.1, fun closes => by simpa using going.2 closes⟩

theorem members_advances (close : Mark)
    (opened : close = .closeBrace ∨ Occurs source (.mark .openParen))
    (own : ¬ Foreign close s.current.kind) :
    Advances s.left (fun again => (Loop.members close).round n again ()) s := by
  have started : s.Move source (s.startRound close) := .startRound opened
  have within := started.within inside
  refine .after rfl (.after rfl (.ite (fun _ => .leaves _) fun going => ?_))
  rw [not_or] at going
  have tried := (reading source (Nat.le_refl n)).member close
  refine .attempt (fun head t ran => ?_) fun t broke => .bind fun _ u ran => ?_
  · have : t.left + 1 ≤ s.left := (tried.left_of_done within ran).2
    exact .again_bind () _ (by omega)
  · have less : u.left < (s.startRound close).left := by
      refine tried.left_of_skip (skipMember_reads close 0 (Nat.le_refl n)) ?_ within broke ran
      refine (skipMember_takes close (Nat.le_refl n)).narrow ?_
      rintro _ rfl
      exact ⟨going.2, going.1, own⟩
    exact .again () less

end

/-- A list of members at a closing mark of another list comes to a round in the same place. -/
theorem members_continues (n : Nat) (foreign : Foreign close s.current.kind) :
    ¬ Leaves (fun again => (Loop.members close).round (n + 2) again ()) s ∧
      Continues (fun again => (Loop.members close).round (n + 2) again ()) s (stuck close s) := by
  have goes (again : Unit → Parser (List Member)) :
      (Loop.members close).round (n + 2) again () s = again () (stuck close s) := by
    dsimp only [Loop.members]
    rw [run_update, run_kind, if_neg (foreign_startRound foreign),
      run_of_done (attempt_foreign n foreign)]
    exact run_of_done (skipMember_stuck (n + 1) foreign)
  refine ⟨?_, (), id, goes⟩
  rintro ⟨reply, ended⟩
  have breaks := (goes fun _ => giveUp).symm.trans (ended _)
  cases breaks.trans ((ended fun _ s => .exhausted s).symm.trans (goes _))

/-- Nothing but what is reported changes there. -/
theorem stuck_eq (foreign : Foreign close s.current.kind) :
    ∃ diagnostics, stuck close s =
      { s with diagnostics, pending := [], rounds := (close, s.current.kind) :: s.rounds } := by
  have stands : (s.startRound close).current.kind = s.current.kind := rfl
  obtain ⟨message, told⟩ : ∃ message, stuck close s =
      (s.startRound close).report .tokenExpected message s.current.span := by
    rcases foreign.1 with is | is
    · exact ⟨_, by rw [stuck, State.expected, stands, is]; rfl⟩
    · exact ⟨_, by rw [stuck, State.expected, stands, is]; rfl⟩
  exact ⟨_, told⟩

/-- Every round takes a token or ends its loop, unless a list of members stands at a closing mark
of another list. -/
theorem LoopName.advances (name : LoopName) (n : Nat) (carried : name.loop.Carried)
    (terminated : Terminated s.upcoming)
    (own : ∀ close, name = .members close → ¬ Foreign close s.current.kind) :
    Advances s.left (fun again => name.loop.round n again carried) s := by
  -- any tokens are the last ones of a text with a parenthesis in it
  obtain ⟨source, inside, opened⟩ : ∃ source, s.Within source ∧ Occurs source (.mark .openParen) :=
    ⟨⟨⟨.mark .openParen, "", .point 1 1⟩, []⟩ :: s.upcoming,
      ⟨terminated, List.suffix_cons ..⟩, _, List.mem_cons_self .., rfl⟩
  cases name with
  | items topLevel => exact items_advances n inside topLevel
  | operations => exact operations_advances n inside
  | members close => exact members_advances n inside close (.inr opened) (own close rfl)
  | decorators => exact decorators_advances n inside
  | decoratorArgs => exact decoratorArgs_advances n inside
  | templateParams => exact templateParams_advances n inside
  | options => exact options_advances n inside
  | typeArgs => exact typeArgs_advances n inside
  | arraySuffix start => exact arraySuffix_advances n inside start carried
  | identPath => exact pathTail_advances n inside (ident_reads 0)
  | namePath => exact pathTail_advances n inside (anyName_reads 0)
  | skipStatement topLevel => exact skipStatement_advances n inside topLevel carried
  | skipMember close => exact skipMember_advances n inside close carried

/-! ### Whole files -/

/-- The reply to a whole file, read with so many steps. -/
def Reply.ofFile (file : FileId) (text : String) (steps : Nat) : Reply (List Item) :=
  Parser.items true steps (.start file (tokenize text))

/-- Two numbers of steps for one file. -/
theorem Reply.ofFile_fits (file : FileId) (text : String) {m : Nat} (le : n ≤ m) :
    Reply.Fits (tokenize text) (fun list => ∀ item ∈ list, item.Spelled (Word (tokenize text))) 0
      (n - 3) (.start file (tokenize text)) (.ofFile file text n) (.ofFile file text m) :=
  ((readingItems _ le).items true _ (State.start_within file text) trivial).1

/-- More steps never change an answer. -/
theorem Reply.ofFile_of_le (le : n ≤ m) (returns : (ofFile file text n).Returns) :
    ofFile file text m = ofFile file text n :=
  (ofFile_fits file text le).agrees returns

theorem Reply.ofFile_free (returns : (ofFile file text n).Returns) :
    (ofFile file text n).state.Free :=
  (ofFile_fits file text (Nat.le_refl n)).lands.free returns (by simp [State.Free, State.start])

/-- Reading that ends with some number of steps starts no bad round with any number of them. -/
theorem Reply.ofFile_always_free (returns : (ofFile file text n).Returns) (m : Nat) :
    (ofFile file text m).state.Free := by
  rcases Nat.le_total n m with le | le
  · rw [ofFile_of_le le returns]
    exact ofFile_free returns
  · cases ran : ofFile file text m with
    | exhausted t =>
      have fits := ofFile_fits file text le
      exact (fits.warns t ran).1 (ofFile_free returns)
    | done list t | broken t =>
      rw [← ran]
      exact ofFile_free (by rw [ran]; trivial)

/-- Without parentheses there is no list but those in braces. -/
theorem Reply.ofFile_braces (file : FileId) (opening : ¬ Occurs (tokenize text) (.mark .openParen))
    (closing : ¬ Occurs (tokenize text) (.mark .closeParen)) (n : Nat) :
    (ofFile file text n).state.Free := by
  obtain ⟨started, rounds, startable⟩ :=
    (ofFile_fits file text (Nat.le_refl n)).lands.reaches.rounds
  intro round member foreign
  rw [rounds] at member
  obtain ⟨own, occurs⟩ := startable (State.start_within file text) round (by simpa [State.start] using member)
  have braces : round.1 = .closeBrace := own.resolve_right opening
  rcases foreign.1 with is | is
  · exact foreign.2 (by rw [is, braces])
  · exact closing (is ▸ occurs)

end Syntax

open Syntax

namespace Script
variable {file : FileId}

theorem readWith_isSome (steps : Nat) :
    (readWith steps file (tokenize text)).isSome ↔ (Reply.ofFile file text steps).Returns := by
  unfold readWith Reply.ofFile
  cases Parser.items true steps (.start file (tokenize text)) with
  | done list t | broken t => exact ⟨fun _ => trivial, fun _ => rfl⟩
  | exhausted t => simp [Reply.Returns]

/-- A file with another number gives the same imports and items. -/
theorem read_renumber (file other : FileId) (text : String) :
    read other text = (read file text).map fun parsed =>
      (⟨other, parsed.1.imports, parsed.1.items⟩, parsed.2.map (·.renumber other)) := by
  have reads := Parser.readingItems (tokenize text) (Nat.le_refl (stepLimit (tokenize text).length))
  have same : Parser.items true _ (.start other (tokenize text)) = _ :=
    (reads.items true _ (State.start_within file text) trivial).2.1 other
  simp only [read, readWith, same]
  cases Parser.items true (stepLimit (tokenize text).length) (.start file (tokenize text)) with
  | done items state | broken state =>
    simp only [Reply.renumber, State.flush_renumber]
    rfl
  | exhausted state => rfl

theorem readWith_of_le (le : n ≤ m) (enough : (readWith n file (tokenize text)).isSome) :
    readWith m file (tokenize text) = readWith n file (tokenize text) := by
  have same := Reply.ofFile_of_le le ((readWith_isSome n).mp enough)
  unfold Reply.ofFile at same
  rw [readWith, readWith, same]

/-- Reading ends exactly if no list of members starts a round at a closing mark of another list. -/
theorem read_isSome : (read file text).isSome ↔ ∀ steps, (Reply.ofFile file text steps).state.Free := by
  constructor
  · intro ended
    exact Reply.ofFile_always_free ((readWith_isSome _).mp ended)
  · intro free
    have fits := Reply.ofFile_fits file text (Nat.le_refl (stepLimit (tokenize text).length))
    have free := free (stepLimit (tokenize text).length)
    apply (readWith_isSome _).mpr
    cases ran : Reply.ofFile file text (stepLimit (tokenize text).length) with
    | done list t => trivial
    | broken t => trivial
    | exhausted t =>
      -- the steps that are allowed suffice where no bad round is started
      rw [ran] at free
      refine (fits.warns t ran).2 ?_ free
      show 8 * ((tokenize text).length : Int) ≤ (8 * ((tokenize text).length + 1) : Nat) - 3
      omega

/-- The steps that are allowed suffice if any number of them does. -/
theorem read_eq_some_iff :
    read file text = some result ↔ ∃ steps, readWith steps file (tokenize text) = some result := by
  constructor
  · intro ended
    exact ⟨_, ended⟩
  · rintro ⟨steps, ended⟩
    have enough : (readWith steps file (tokenize text)).isSome := by rw [ended]; rfl
    have free := Reply.ofFile_always_free ((readWith_isSome steps).mp enough)
    have allowed : (read file text).isSome := read_isSome.mpr free
    rcases Nat.le_total steps (stepLimit (tokenize text).length) with le | le
    · exact (readWith_of_le le enough).trans ended
    · exact (readWith_of_le le allowed).symm.trans ended

end Script

/-- Every round of every loop takes a token or ends its loop, except that a list of members at the
closing mark of another list comes to a round in the same place. So reading a file ends, with any
number of steps and with those that are allowed, exactly if no such round is ever started, and it
does so on every text without parentheses. -/
theorem reading_takes_tokens :
    (∀ (name : LoopName) (n : Nat) (carried : name.loop.Carried) (s : State),
      Terminated s.upcoming → (∀ close, name = .members close → ¬ Foreign close s.current.kind) →
        Leaves (fun again => name.loop.round n again carried) s ∨
          ∃ t : State, t.left < s.left ∧
            Continues (fun again => name.loop.round n again carried) s t) ∧
    (∀ (close : Mark) (n : Nat) (s : State), Foreign close s.current.kind → ∃ diagnostics,
      ¬ Leaves (fun again => (Loop.members close).round (n + 2) again ()) s ∧
      Continues (fun again => (Loop.members close).round (n + 2) again ()) s
        { s with diagnostics, pending := [], rounds := (close, s.current.kind) :: s.rounds }) ∧
    ∀ (file : FileId) (text : String),
      ((Script.read file text).isSome ↔ ∀ steps, ∀ round ∈ (Reply.ofFile file text steps).state.rounds,
        ¬ Foreign round.1 round.2) ∧
      (∀ result, Script.read file text = some result ↔
        ∃ steps, Script.readWith steps file (tokenize text) = some result) ∧
      (¬ Occurs (tokenize text) (.mark .openParen) → ¬ Occurs (tokenize text) (.mark .closeParen) →
        (Script.read file text).isSome) := by
  refine ⟨fun name n carried s terminated own => name.advances n carried terminated own, ?_, ?_⟩
  · intro close n s foreign
    obtain ⟨diagnostics, same⟩ := stuck_eq foreign
    exact ⟨diagnostics, same ▸ members_continues n foreign⟩
  · intro file text
    refine ⟨Script.read_isSome, fun _ => Script.read_eq_some_iff, fun opening closing => ?_⟩
    exact Script.read_isSome.mpr (Reply.ofFile_braces file opening closing)

/-- Braces alone are always read to the end, and a brace among parameters never is. -/
theorem reading_takes_tokens_braces :
    (¬ Occurs (tokenize "model A \x7b x: ; \x7d \x7d") (.mark .openParen) ∧
      ¬ Occurs (tokenize "model A \x7b x: ; \x7d \x7d") (.mark .closeParen) ∧
      (Script.read ⟨1⟩ "model A \x7b x: ; \x7d \x7d").isSome) ∧
    (Script.read ⟨1⟩ "op f(\x7d").isSome = false ∧
      ∃ steps, ∃ round ∈ (Reply.ofFile ⟨1⟩ "op f(\x7d" steps).state.rounds,
        Foreign round.1 round.2 := by
  have opening : ¬ Occurs (tokenize "model A \x7b x: ; \x7d \x7d") (.mark .openParen) := by
    unfold Occurs
    decide +kernel
  have closing : ¬ Occurs (tokenize "model A \x7b x: ; \x7d \x7d") (.mark .closeParen) := by
    unfold Occurs
    decide +kernel
  have endless : (Script.read ⟨1⟩ "op f(\x7d").isSome = false := by decide +kernel
  refine ⟨⟨opening, closing, (reading_takes_tokens.2.2 ⟨1⟩ _).2.2 opening closing⟩, endless, ?_⟩
  refine Classical.byContradiction fun none => ?_
  have free := (reading_takes_tokens.2.2 ⟨1⟩ "op f(\x7d").1.mpr fun steps round member foreign =>
    none ⟨steps, round, member, foreign⟩
  cases free.symm.trans endless

end Idl
