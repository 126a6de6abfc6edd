import Idl.Proofs.SoundReading

/-! What a reader makes of the state, whatever it reads. It takes tokens from the
front, it may start rounds of reading members, and it stops for want of steps only
if it was allowed few of them or if a round was started at a closing mark that the
list does not own. Two numbers of steps are compared at a time, so that the same
proofs show that more steps never change an answer. The number of the file is kept for
the sake of the reports only, so a reader that starts from a state with another number
ends in the same way, in a state with that number. Where nothing was found, what was
read is a text of the value. -/
namespace Idl

/-- The finding as it is in a file with another number. -/
def Diagnostic.renumber (file : FileId) (d : Diagnostic) : Diagnostic :=
  { d with location := d.location.map fun location => { location with file } }

namespace Syntax

/-- A closing mark that a list of members does not own. -/
def Foreign (close : Mark) (kind : TokenKind) : Prop :=
  (kind = .mark .closeBrace ∨ kind = .mark .closeParen) ∧ kind ≠ .mark close

/-- A name that stands in a text. -/
def Word (source : List Scanned) (name : String) : Prop :=
  ∃ scanned ∈ source, scanned.token.kind = .identifier ∧ scanned.token.lexeme = name

/-! ### States -/

namespace State
variable {s : State}

/-- No round was started at a closing mark of another list. -/
def Free (s : State) : Prop := ∀ round ∈ s.rounds, ¬ Foreign round.1 round.2

/-- The number of tokens that are left. -/
def left (s : State) : Nat := s.upcoming.length

/-- The tokens that are left are the last ones of a text. -/
structure Within (source : List Scanned) (s : State) : Prop where
  terminated : Terminated s.upcoming
  rest : s.upcoming <:+ source

/-- A round that may be started in a text. -/
def Startable (source : List Scanned) (round : Mark × TokenKind) : Prop :=
  (round.1 = .closeBrace ∨ Occurs source (.mark .openParen)) ∧ Occurs source round.2

theorem Within.current_mem (inside : s.Within source) :
    ∃ scanned ∈ source, scanned.token = s.current := by
  have terminated := inside.terminated
  rcases coming : s.upcoming with _ | ⟨first, rest⟩
  · rw [coming] at terminated
    cases terminated
  · refine ⟨first, inside.rest.subset (by simp [coming]), ?_⟩
    simp [State.current, coming]

theorem Within.occurs (inside : s.Within source) : Occurs source s.current.kind := by
  obtain ⟨scanned, member, same⟩ := inside.current_mem
  exact ⟨scanned, member, by rw [same]⟩

theorem Within.word (inside : s.Within source) (is : s.current.kind = .identifier) :
    Word source s.current.lexeme := by
  obtain ⟨scanned, member, same⟩ := inside.current_mem
  exact ⟨scanned, member, by rw [same, is], by rw [same]⟩

theorem rounds_advance (s : State) : s.advance.rounds = s.rounds := by
  unfold State.advance
  split <;> rfl

theorem upcoming_expected (s : State) (what : String) : (s.expected what).upcoming = s.upcoming := by
  unfold State.expected
  split
  · rfl
  · split <;> rfl
  · rfl

theorem rounds_expected (s : State) (what : String) : (s.expected what).rounds = s.rounds := by
  unfold State.expected
  split
  · rfl
  · split <;> rfl
  · rfl

theorem Move.rest (move : Move source s t) : t.upcoming <:+ s.upcoming := by
  cases move with
  | advance more =>
    unfold State.advance
    split
    · rename_i coming
      rw [coming]
      exact List.suffix_cons ..
    · exact List.suffix_rfl
  | _ => exact List.suffix_rfl

theorem Move.within (move : Move source s t) (inside : s.Within source) : t.Within source := by
  refine ⟨?_, move.rest.trans inside.rest⟩
  cases move with
  | advance more =>
    obtain ⟨first, second, rest, _, terminated, moved⟩ := advance_eq inside.terminated more
    rw [moved]
    exact terminated
  | _ => exact inside.terminated

theorem Move.rounds (move : Move source s t) : ∃ started, t.rounds = started ++ s.rounds ∧
    (s.Within source → ∀ round ∈ started, Startable source round) := by
  cases move with
  | advance => exact ⟨[], s.rounds_advance, by simp⟩
  | @startRound close opened =>
    refine ⟨[(close, s.current.kind)], rfl, fun inside round only => ?_⟩
    obtain rfl := List.mem_singleton.mp only
    exact ⟨opened, inside.occurs⟩
  | _ => exact ⟨[], rfl, by simp⟩

section
variable (reaches : s.Reaches source t)
include reaches

theorem Reaches.rest : t.upcoming <:+ s.upcoming := by
  induction reaches with
  | refl => exact List.suffix_rfl
  | tail _ move ih => exact move.rest.trans ih

theorem Reaches.within (inside : s.Within source) : t.Within source := by
  induction reaches with
  | refl => exact inside
  | tail _ move ih => exact move.within ih

theorem Reaches.rounds : ∃ started, t.rounds = started ++ s.rounds ∧
    (s.Within source → ∀ round ∈ started, Startable source round) := by
  induction reaches with
  | refl => exact ⟨[], rfl, by simp⟩
  | tail reached move ih =>
    obtain ⟨early, begun, fine⟩ := ih
    obtain ⟨late, ended, good⟩ := move.rounds
    refine ⟨late ++ early, by rw [ended, begun, List.append_assoc], fun inside round member => ?_⟩
    exact (List.mem_append.mp member).elim (good (Reaches.within reached inside) round)
      (fine inside round)

theorem Reaches.left_le : t.left ≤ s.left := reaches.rest.length_le

theorem Reaches.free (free : t.Free) : s.Free := by
  obtain ⟨started, rounds, _⟩ := reaches.rounds
  intro round member
  exact free round (by rw [rounds]; exact List.mem_append_right _ member)

/-- Where no token was taken the current one is the same. -/
theorem Reaches.current (same : s.left ≤ t.left) : t.current = s.current := by
  rw [State.current, State.current, reaches.rest.eq_of_length_le same]

end

theorem Within.advance (inside : s.Within source) (more : s.current.kind ≠ .endOfFile) :
    s.advance.Within source :=
  (Move.advance more).within inside

theorem left_advance (inside : s.Within source) (more : s.current.kind ≠ .endOfFile) :
    s.advance.left + 1 = s.left := by
  obtain ⟨first, second, rest, coming, _, moved⟩ := advance_eq inside.terminated more
  simp [left, moved, coming]

/-! ### Numbers of files -/

variable {file : FileId}

/-- The state in which a file with another number is read. -/
def renumber (file : FileId) (s : State) : State :=
  { s with file, diagnostics := s.diagnostics.map (·.renumber file) }

@[simp] theorem current_renumber : (s.renumber file).current = s.current := rfl

@[simp] theorem advance_renumber : (s.renumber file).advance = s.advance.renumber file := by
  obtain ⟨_, upcoming, _⟩ := s
  rcases upcoming with _ | ⟨first, _ | ⟨second, rest⟩⟩ <;> rfl

@[simp] theorem flush_renumber : (s.renumber file).flush = s.flush.renumber file := by
  simp [flush, renumber, LexError.diagnostic, Diagnostic.report, Diagnostic.renumber]

@[simp] theorem report_renumber (s : State) (code : Code) (message : String) (span : Span) :
    (s.renumber file).report code message span = (s.report code message span).renumber file := by
  simp only [report, flush_renumber]
  simp [renumber, Diagnostic.report, Diagnostic.renumber]

@[simp] theorem expected_renumber (what : String) :
    (s.renumber file).expected what = (s.expected what).renumber file := by
  unfold expected
  rw [current_renumber]
  split
  · rfl
  · show (if s.endReported then _ else _) = _
    split
    · rfl
    · exact report_renumber { s with endReported := true } ..
  · exact report_renumber ..

end State

/-! ### Replies -/

/-- The reply with the number of another file. -/
def Reply.renumber {α : Type} (file : FileId) : Reply α → Reply α
  | .done value s => .done value (s.renumber file)
  | .broken s => .broken (s.renumber file)
  | .exhausted s => .exhausted (s.renumber file)

/-- The state in which reading ended. -/
def Reply.state {α : Type} : Reply α → State
  | .done _ s => s
  | .broken s => s
  | .exhausted s => s

/-- Reading ended by itself. -/
def Reply.Returns {α : Type} : Reply α → Prop
  | .exhausted _ => False
  | _ => True

/-- How reading from a state may end. A value fits `post`, and at least so many tokens are taken for
it. Reading that ends by itself has started no round at a closing mark of another list. -/
structure Reply.Lands {α : Type} (source : List Scanned) (post : α → Prop) (taken : Nat) (s : State)
    (reply : Reply α) : Prop where
  reaches : s.Reaches source reply.state
  free : reply.Returns → s.Free → reply.state.Free
  value : ∀ value t, reply = .done value t → post value ∧ t.left + taken ≤ s.left

/-- The replies of a reader from one state with two numbers of steps, the second one larger. The
first one suffices if its budget has eight steps for every token that is left, unless a round was
started at a closing mark of another list. -/
structure Reply.Fits {α : Type} (source : List Scanned) (post : α → Prop) (taken : Nat) (budget : Int)
    (s : State) (reply other : Reply α) : Prop where
  lands : other.Lands source post taken s
  agrees : reply.Returns → other = reply
  warns : ∀ t, reply = .exhausted t →
    (other.state.Free → t.Free) ∧ (8 * (s.left : Int) ≤ budget → ¬ t.Free)

namespace Reply.Lands
variable {reply : Reply α}

/-- The rest of reading, after some tokens. -/
theorem after (reaches : s.Reaches source t) (free : s.Free → t.Free)
    (took : t.left + taken ≤ s.left) (lands : reply.Lands source post (more - taken) t) :
    reply.Lands source post more s where
  reaches := reaches.trans lands.reaches
  free := fun returns unspoilt => lands.free returns (free unspoilt)
  value := by
    intro value u read
    obtain ⟨fine, further⟩ := lands.value value u read
    exact ⟨fine, by omega⟩

theorem bind {p : Parser α} {post : β → Prop} (inside : s.Within source)
    (begun : (p s).Lands source first taken s) (rest : ∀ value t, first value → t.Within source →
      (f value t).Lands source post (more - taken) t) : ((p >>= f) s).Lands source post more s := by
  show (Parser.bind p f s).Lands source post more s
  unfold Parser.bind
  cases ran : p s with
  | done value t =>
    rw [ran] at begun
    obtain ⟨fine, took⟩ := begun.value value t rfl
    exact after begun.reaches (begun.free trivial) took
      (rest value t fine (begun.reaches.within inside))
  | broken t =>
    rw [ran] at begun
    exact ⟨begun.reaches, begun.free, by simp⟩
  | exhausted t =>
    rw [ran] at begun
    exact ⟨begun.reaches, False.elim, by simp⟩

end Reply.Lands

namespace Reply.Fits
variable {first : α → Prop}

/-- A reply that does not depend on the number of steps. -/
theorem same (lands : reply.Lands source post taken s) (returns : reply.Returns) :
    Fits source post taken budget s reply reply where
  lands := lands
  agrees := fun _ => rfl
  warns := by
    rintro t rfl
    exact returns.elim

theorem done (fine : post value) :
    Fits source post 0 budget s (.done value s) (.done value s) := by
  refine same ⟨.refl, fun _ free => free, ?_⟩ trivial
  rintro _ _ ⟨⟩
  exact ⟨fine, Nat.le_refl _⟩

theorem broken (reaches : s.Reaches source t) (rounds : t.rounds = s.rounds) :
    Fits source post taken budget s (.broken t) (.broken t) := by
  refine same ⟨reaches, fun _ free => ?_, by simp⟩ trivial
  rw [State.Free, Reply.state, rounds]
  exact free

/-- The smaller number of steps is nothing at all. -/
theorem exhausted (lands : other.Lands source post taken s) (none : budget < 0) :
    Fits source post taken budget s (.exhausted s) other where
  lands := lands
  agrees := False.elim
  warns := by
    rintro t ⟨⟩
    exact ⟨lands.reaches.free, by omega⟩

theorem weaken (fits : Fits source first taken budget s reply other)
    (follows : ∀ value, first value → post value) (fewer : less ≤ taken) (below : lower ≤ budget) :
    Fits source post less lower s reply other where
  lands :=
    { fits.lands with
      value := by
        intro value t read
        obtain ⟨fine, took⟩ := fits.lands.value value t read
        exact ⟨follows value fine, by omega⟩ }
  agrees := fits.agrees
  warns := fun t out => ⟨(fits.warns t out).1, fun enough => (fits.warns t out).2 (by omega)⟩

/-- The rest of reading, after some tokens. -/
theorem after (taken : Nat) (reaches : s.Reaches source t) (free : s.Free → t.Free)
    (took : t.left + taken ≤ s.left)
    (fits : Fits source post (more - taken) (budget - 8 * taken) t reply other) :
    Fits source post more budget s reply other where
  lands := fits.lands.after reaches free took
  agrees := fits.agrees
  warns := fun u out => ⟨(fits.warns u out).1, fun enough => (fits.warns u out).2 (by omega)⟩

/-- The rest of reading, after notes that were made. -/
theorem notes (reaches : s.Reaches source t) (free : s.Free → t.Free)
    (fits : Fits source post taken budget t reply other) :
    Fits source post taken budget s reply other :=
  after 0 reaches free reaches.left_le (by simpa using fits)

/-- Two readers in a row. -/
theorem bind {p : Parser α} {f g : α → Parser β} {post : β → Prop} (inside : s.Within source)
    (begun : Fits source first taken larger s (p s) (q s)) (below : budget ≤ larger)
    (rest : ∀ value t, first value → t.Within source →
      Fits source post (more - taken) (budget - 8 * taken) t (f value t) (g value t)) :
    Fits source post more budget s ((p >>= f) s) ((q >>= g) s) := by
  have whole : ((q >>= g) s).Lands source post more s :=
    begun.lands.bind inside fun value t fine within => (rest value t fine within).lands
  have lands := begun.lands
  show Fits source post more budget s (Parser.bind p f s) (Parser.bind q g s)
  change (Parser.bind q g s).Lands source post more s at whole
  unfold Parser.bind at whole ⊢
  cases ran : p s with
  | done value t =>
    rw [ran] at begun
    rw [begun.agrees trivial] at lands
    obtain ⟨fine, took⟩ := lands.value value t rfl
    rw [begun.agrees trivial]
    exact after _ lands.reaches (lands.free trivial) took
      (rest value t fine (lands.reaches.within inside))
  | broken t =>
    rw [ran] at begun
    rw [begun.agrees trivial] at whole ⊢
    exact same whole trivial
  | exhausted t =>
    rw [ran] at begun
    refine ⟨whole, False.elim, ?_⟩
    rintro u ⟨⟩
    obtain ⟨spoils, short⟩ := begun.warns t rfl
    refine ⟨fun free => spoils ?_, fun enough => short (by omega)⟩
    cases went : q s with
    | done value u =>
      rw [went] at lands free
      obtain ⟨fine, _⟩ := lands.value value u rfl
      exact (rest value u fine (lands.reaches.within inside)).lands.reaches.free free
    | broken u =>
      rw [went] at free
      exact free
    | exhausted u =>
      rw [went] at free
      exact free

/-- A reader whose breaking off is caught. -/
theorem attempt {post : β → Prop} (inside : s.Within source)
    (begun : Fits source first taken larger s (p s) (q s)) (below : budget ≤ larger)
    (kept : ∀ value t, first value → t.Within source →
      Fits source post (more - taken) (budget - 8 * taken) t (f (some value) t) (g (some value) t))
    (lost : ∀ t, s.Reaches source t → Fits source post (more - (s.left - t.left))
      (budget - 8 * (s.left - t.left : Nat)) t (f none t) (g none t)) :
    Fits source post more budget s ((Parser.attempt p >>= f) s) ((Parser.attempt q >>= g) s) := by
  have whole := begun.bind inside below kept
  have lands := begun.lands
  show Fits source post more budget s (Parser.bind (Parser.attempt p) f s)
    (Parser.bind (Parser.attempt q) g s)
  change Fits source post more budget s (Parser.bind p (fun value => f (some value)) s)
    (Parser.bind q (fun value => g (some value)) s) at whole
  unfold Parser.bind Parser.attempt
  unfold Parser.bind at whole
  cases ran : p s with
  | done value t =>
    rw [ran] at begun whole
    rw [begun.agrees trivial] at whole ⊢
    exact whole
  | broken t =>
    rw [ran] at begun
    rw [begun.agrees trivial] at lands ⊢
    have less : t.left ≤ s.left := lands.reaches.left_le
    have reaches : s.Reaches source t := lands.reaches
    exact after (s.left - t.left) reaches (lands.free trivial) (by omega) (lost t reaches)
  | exhausted t =>
    rw [ran] at begun whole
    cases went : q s with
    | done value u | exhausted u =>
      rw [went] at whole
      exact whole
    | broken u =>
      rw [went] at lands begun
      have less : u.left ≤ s.left := lands.reaches.left_le
      have further := (lost u lands.reaches).lands
      have reaches : s.Reaches source u := lands.reaches
      refine ⟨further.after reaches (lands.free trivial) (by omega), False.elim, ?_⟩
      rintro v ⟨⟩
      obtain ⟨spoils, short⟩ := begun.warns t rfl
      exact ⟨fun free => spoils (further.reaches.free free), fun enough => short (by omega)⟩

end Reply.Fits

/-- No condition. -/
def Any {α : Type} : α → Prop := fun _ => True

/-! ### Readers -/

/-- From here a reader reads the same in a file with any number. -/
def Parser.Impartial {α : Type} (p : Parser α) (s : State) : Prop :=
  ∀ file, p (s.renumber file) = (p s).renumber file

namespace Parser.Impartial
variable {f : α → Parser β}

theorem bind (inside : s.Within source) (lands : (p s).Lands source first taken s)
    (begun : p.Impartial s) (rest : ∀ value t, first value → t.Within source → (f value).Impartial t) :
    (p >>= f).Impartial s := by
  intro file
  show Parser.bind p f (s.renumber file) = (Parser.bind p f s).renumber file
  unfold Parser.bind
  rw [begun file]
  cases ran : p s with
  | done value t =>
    rw [ran] at lands
    exact rest value t (lands.value value t rfl).1 (lands.reaches.within inside) file
  | broken t => rfl
  | exhausted t => rfl

theorem attempt {f : Option α → Parser β} (inside : s.Within source)
    (lands : (p s).Lands source first taken s) (begun : p.Impartial s)
    (kept : ∀ value t, first value → t.Within source → (f (some value)).Impartial t)
    (lost : ∀ t, s.Reaches source t → (f none).Impartial t) :
    (Parser.attempt p >>= f).Impartial s := by
  intro file
  show Parser.bind (Parser.attempt p) f (s.renumber file) =
    (Parser.bind (Parser.attempt p) f s).renumber file
  unfold Parser.bind Parser.attempt
  rw [begun file]
  cases ran : p s with
  | done value t =>
    rw [ran] at lands
    exact kept value t (lands.value value t rfl).1 (lands.reaches.within inside) file
  | broken t =>
    rw [ran] at lands
    exact lost t lands.reaches file
  | exhausted t => rfl

theorem expect {kind : TokenKind} {f : Token → Parser β}
    (yes : s.current.kind = kind → (f s.current).Impartial s.advance) :
    (Parser.expect kind >>= f).Impartial s := by
  intro file
  rw [run_expect, run_expect, State.current_renumber, State.advance_renumber, State.expected_renumber]
  split
  · exact yes ‹_› file
  · rfl

end Parser.Impartial

/-- A reader with two numbers of steps, wherever the current token is as `pre` says. -/
def Parser.Reads {α : Type} (source : List Scanned) (pre : Token → Prop) (post : α → Prop)
    (text : Text α) (taken : Nat) (budget : Int) (p q : Parser α) : Prop :=
  ∀ s : State, s.Within source → pre s.current →
    Reply.Fits source post taken budget s (p s) (q s) ∧ q.Impartial s ∧
      (s.Proper → (q s).Ends s (text s))

namespace Parser.Reads

theorem pure (fine : post value) (empty : ∀ {s : State}, pre s.current → text s value s [] []) :
    Reads source pre post text 0 budget (Parser.pure value) (Parser.pure value) :=
  fun _ _ here => ⟨.done fine, fun _ => rfl, fun _ => .done (empty here)⟩

theorem stop : Reads source pre Any AnyText 0 budget (Parser.pure value) (Parser.pure value) :=
  pure trivial fun _ => trivial

theorem given (rest : Reads source pre post text taken budget (f value) (g value)) :
    Reads source pre post text taken budget (Parser.pure value >>= f) (Parser.pure value >>= g) :=
  rest

theorem expected (what : String) :
    Reads source pre post text taken budget (Parser.expected what) (Parser.expected what) :=
  fun s _ _ => ⟨.broken (.expected s what) (s.rounds_expected what),
    fun _ => congrArg Reply.broken (State.expected_renumber what), fun proper => proper.expected what⟩

theorem weaken (reads : Reads source Any wider other more larger p q)
    (follows : ∀ value, wider value → post value) (fewer : taken ≤ more) (below : budget ≤ larger)
    (means : ∀ s value last imports tokens, other s value last imports tokens →
      text s value last imports tokens) :
    Reads source pre post text taken budget p q := by
  intro s inside _
  obtain ⟨fits, impartial, ends⟩ := reads s inside trivial
  exact ⟨fits.weaken follows fewer below, impartial, fun proper => (ends proper).weaken (means s)⟩

theorem narrow (reads : Reads source wider post text taken budget p q)
    (follows : ∀ token, pre token → wider token) : Reads source pre post text taken budget p q :=
  fun s inside here => reads s inside (follows _ here)

theorem here {p : Parser α} (reads : Reads source Any post text taken budget p q) :
    Reads source pre post text taken budget p q :=
  reads.narrow fun _ _ => trivial

/-- A reader at the end of another one. -/
theorem last {larger : Int} (reads : Reads source Any post text more larger p q) (fewer : taken ≤ more)
    (below : budget ≤ larger) : Reads source pre post text taken budget p q :=
  reads.weaken (fun _ fine => fine) fewer below fun _ _ _ _ _ is => is

theorem bind {p : Parser β} {f : β → Parser α}
    (begun : Reads source pre first written taken larger p q) (below : budget ≤ larger)
    (rest : ∀ {s : State} value, pre s.current → first value → Reads source Any post
      (fun middle result last others further => ∀ imports tokens,
        written s value middle imports tokens →
          text s result last (imports ++ others) (tokens ++ further))
      (more - taken) (budget - 8 * taken) (f value) (g value)) :
    Reads source pre post text more budget (p >>= f) (q >>= g) := by
  intro s inside here
  obtain ⟨fits, impartial, ends⟩ := begun s inside here
  have onward (value : β) (t : State) (fine : first value) (within : t.Within source) :=
    rest value here fine t within trivial
  refine ⟨fits.bind inside below fun value t fine within => (onward value t fine within).1,
    .bind inside fits.lands impartial fun value t fine within => (onward value t fine within).2.1,
    fun proper => .bind (ends proper) fun value t ran => ?_⟩
  have lands := fits.lands
  rw [ran] at lands
  exact (onward value t (lands.value value t rfl).1 (lands.reaches.within inside)).2.2
    (lands.reaches.proper proper)

/-- The same if the first one reads no imports. -/
theorem bind_plain {p : Parser β} {f : β → Parser α} {written : β → List Token → Prop}
    (begun : Reads source pre first (Plainly written) taken larger p q) (below : budget ≤ larger)
    (rest : ∀ {s : State} value, pre s.current → first value → Reads source Any post
      (fun _ result last imports further => ∀ tokens, written value tokens →
        text s result last imports (tokens ++ further))
      (more - taken) (budget - 8 * taken) (f value) (g value)) :
    Reads source pre post text more budget (p >>= f) (q >>= g) := by
  refine bind begun below fun value here fine => (rest value here fine).weaken
    (fun _ fine => fine) (Nat.le_refl _) (Int.le_refl _) ?_
  rintro middle result last others further held imports tokens ⟨rfl, is⟩
  exact held tokens is

theorem ite [Decidable condition] (yes : condition → Reads source pre post text taken budget p q)
    (no : ¬ condition → Reads source pre post text taken budget r t) :
    Reads source pre post text taken budget (if condition then p else r)
      (if condition then q else t) := by
  split
  · exact yes ‹_›
  · exact no ‹_›

theorem current {f : Token → Parser α} (rest : ∀ token, pre token →
      Reads source (· = token) post text taken budget (f token) (g token)) :
    Reads source pre post text taken budget (Parser.current >>= f) (Parser.current >>= g) :=
  fun s inside here => rest s.current here s inside rfl

theorem kind (rest : ∀ token, pre token →
      Reads source (· = token) post text taken budget (f token.kind) (g token.kind)) :
    Reads source pre post text taken budget (Parser.kind >>= f) (Parser.kind >>= g) :=
  fun s inside here => rest s.current here s inside rfl

theorem spanFrom (rest : ∀ span, Reads source pre post text taken budget (f span) (g span)) :
    Reads source pre post text taken budget (Parser.spanFrom start >>= f)
      (Parser.spanFrom start >>= g) :=
  fun s inside here => rest (s.spanFrom start) s inside here

/-- After a report anything may follow. -/
theorem report {f : Unit → Parser α} {span : Span}
    (move : ∀ s : State, pre s.current → s.Move source (s.report code message span))
    (rest : Reads source Any post AnyText taken budget (f ()) (g ())) :
    Reads source pre post text taken budget (Parser.report code message span >>= f)
      (Parser.report code message span >>= g) := by
  intro s inside here
  obtain ⟨fits, impartial, ends⟩ := rest _ ((move s here).within inside) trivial
  refine ⟨.notes (.single (move s here)) (fun free => free) fits, fun file => ?_,
    fun proper => .of_loud State.not_silent_report (ends ((move s here).proper proper))⟩
  rw [run_report, run_report, s.report_renumber code message span]
  exact impartial file

theorem complain {span : Span}
    (move : ∀ s : State, pre s.current → s.Move source (s.report code message span)) :
    Reads source pre post text taken budget
      (Parser.report code message span >>= fun _ => Parser.giveUp)
      (Parser.report code message span >>= fun _ => Parser.giveUp) :=
  fun s _ here => ⟨.broken (.single (move s here)) rfl,
    fun _ => congrArg Reply.broken (s.report_renumber code message span),
    fun _ => State.not_silent_report⟩

/-- What follows the current token, which is not the end of the file. -/
theorem taking {s : State} {text : α → State → List ImportDecl → List Token → Prop}
    (inside : s.Within source) (more : s.current.kind ≠ .endOfFile)
    (rest : Reads source Any post
      (fun _ value last imports tokens => text value last imports (s.current :: tokens))
      (taken - 1) (budget - 8) p q) :
    Reply.Fits source post taken budget s (p s.advance) (q s.advance) ∧ q.Impartial s.advance ∧
      (s.Proper → (q s.advance).Ends s text) := by
  have move : s.Move source s.advance := .advance more
  obtain ⟨fits, impartial, ends⟩ := rest _ (move.within inside) trivial
  have took := State.left_advance inside more
  refine ⟨.after 1 (.single move) (fun free => ?_) (by omega) fits, impartial,
    fun proper => .after (proper.advance more) (ends (move.proper proper))⟩
  rwa [State.Free, State.rounds_advance]

/-- The current token is taken. -/
theorem advance (more : ∀ token, pre token → token.kind ≠ .endOfFile)
    (rest : ∀ {s : State}, pre s.current → Reads source Any post
      (fun _ value last imports tokens => text s value last imports (s.current :: tokens))
      (taken - 1) (budget - 8) (f s.current) (g s.current)) :
    Reads source pre post text taken budget (Parser.advance >>= f) (Parser.advance >>= g) := by
  intro s inside here
  obtain ⟨fits, impartial, ends⟩ := taking inside (more _ here) (rest here)
  refine ⟨fits, fun file => ?_, ends⟩
  rw [run_advance, run_advance, State.current_renumber, State.advance_renumber]
  exact impartial file

/-- A token that stands here is taken. -/
theorem eating {f : Bool → Parser α} {kind : TokenKind} (other : kind ≠ .endOfFile)
    (yes : ∀ {s : State}, s.Within source → s.current.kind = kind → Reads source Any post
      (fun _ value last imports tokens => text s value last imports (s.current :: tokens))
      (taken - 1) (budget - 8) (f true) (g true))
    (no : Reads source (fun token => pre token ∧ token.kind ≠ kind) post text taken budget
      (f false) (g false)) :
    Reads source pre post text taken budget (Parser.eat kind >>= f) (Parser.eat kind >>= g) := by
  intro s inside here
  have taken (is : s.current.kind = kind) := taking inside (is ▸ other) (yes inside is)
  have missing (differs : s.current.kind ≠ kind) := no s inside ⟨here, differs⟩
  refine ⟨?_, fun file => ?_, fun proper => ?_⟩
  · rw [run_eat, run_eat]
    split
    · exact (taken ‹_›).1
    · exact (missing ‹_›).1
  · rw [run_eat, run_eat, State.current_renumber, State.advance_renumber]
    split
    · exact (taken ‹_›).2.1 file
    · exact (missing ‹_›).2.1 file
  · rw [run_eat]
    split
    · exact (taken ‹_›).2.2 proper
    · exact (missing ‹_›).2.2 proper

/-- What is read depends on whether a token stands here, which is taken. -/
theorem eat {kind : TokenKind} (other : kind ≠ .endOfFile)
    (yes : ∀ {s : State}, s.Within source → s.current.kind = kind → Reads source Any post
      (fun _ value last imports tokens => text s value last imports (s.current :: tokens))
      (taken - 1) (budget - 8) p q)
    (no : Reads source (fun token => pre token ∧ token.kind ≠ kind) post text taken budget r t) :
    Reads source pre post text taken budget
      (Parser.eat kind >>= fun found => if found = true then p else r)
      (Parser.eat kind >>= fun found => if found = true then q else t) :=
  eating other yes no

/-- An optional token. -/
theorem maybe {kind : TokenKind} (other : kind ≠ .endOfFile)
    (rest : ∀ {s : State} found, Reads source Any post (fun _ value last imports tokens =>
      ∀ before, Maybe kind found before → text s value last imports (before ++ tokens))
      taken budget (f found) (g found)) :
    Reads source pre post text taken budget (Parser.eat kind >>= f) (Parser.eat kind >>= g) := by
  intro s inside here
  have eaten : Reads source pre post (fun _ => text s) taken budget (Parser.eat kind >>= f)
      (Parser.eat kind >>= g) := by
    refine eating other
      (fun _ is => (rest (s := s) true).weaken (fun _ fine => fine) (by omega) (by omega) ?_)
      ((rest (s := s) false).weaken (fun _ fine => fine) (Nat.le_refl _) (Int.le_refl _) ?_)
    · exact fun _ _ _ _ _ held => held _ (.present is)
    · exact fun _ _ _ _ _ held => held _ .missing
  exact eaten s inside here

/-- What is read depends on whether a token stands here, which stays. -/
theorem check {kind : TokenKind} (yes : Reads source (·.kind = kind) post text taken budget p q)
    (no : Reads source pre post text taken budget r t) :
    Reads source pre post text taken budget
      (Parser.check kind >>= fun found => if found = true then p else r)
      (Parser.check kind >>= fun found => if found = true then q else t) := by
  intro s inside here
  have read : Reads source (· = s.current) post text taken budget
      (if (s.current.kind == kind) = true then p else r)
      (if (s.current.kind == kind) = true then q else t) := by
    refine ite (fun is => yes.narrow ?_) fun _ => no.narrow ?_
    · rintro _ rfl
      simpa using is
    · rintro _ rfl
      exact here
  exact read s inside rfl

/-- A token that must stand here. -/
theorem expect {kind : TokenKind} (other : kind ≠ .endOfFile)
    (rest : ∀ {s : State}, s.Within source → s.current.kind = kind → Reads source Any post
      (fun _ value last imports tokens => text s value last imports (s.current :: tokens))
      (taken - 1) (budget - 8) (f s.current) (g s.current)) :
    Reads source pre post text taken budget (Parser.expect kind >>= f) (Parser.expect kind >>= g) := by
  intro s inside _
  have taken (is : s.current.kind = kind) := taking inside (is ▸ other) (rest inside is)
  refine ⟨?_, .expect fun is => (taken is).2.1, fun proper => ?_⟩
  · rw [run_expect, run_expect]
    split
    · exact (taken ‹_›).1
    · exact .broken (.expected s _) (s.rounds_expected _)
  · rw [run_expect]
    split
    · exact (taken ‹_›).2.2 proper
    · exact proper.expected _

/-- A reader whose breaking off is caught, after which it is tried again. Skipping takes the token
at which the reader broke off if it has taken none. -/
theorem recover {p : Parser β} {f : Option β → Parser α}
    (tried : Reads source pre first written 1 larger p q) (below : budget ≤ larger)
    (kept : ∀ {s : State} value, pre s.current → first value → Reads source Any post
      (fun middle result last others further => ∀ imports tokens,
        written s value middle imports tokens →
          text s result last (imports ++ others) (tokens ++ further))
      0 (budget - 8) (f (some value)) (g (some value))) (lost : f none = skip >>= fun _ => rest)
    (missed : g none = skipping >>= fun _ => resting)
    (passes : Reads source Any Any AnyText 0 enough skip skipping)
    (skips : Reads source pre Any AnyText 1 enough skip skipping) (within : budget ≤ enough)
    (again : Reads source Any post other 0 (budget - 8) rest resting) :
    Reads source pre post text 0 budget (Parser.attempt p >>= f) (Parser.attempt q >>= g) := by
  intro s inside here
  obtain ⟨fits, impartial, ends⟩ := tried s inside here
  have kept (value : β) (t : State) (fine : first value) (within : t.Within source) :=
    kept value here fine t within trivial
  have skipped (t : State) (reaches : s.Reaches source t) :
      Reply.Fits source post (0 - (s.left - t.left)) (budget - 8 * (s.left - t.left : Nat)) t
        (f none t) (g none t) ∧ (g none).Impartial t ∧
          (t.Proper → (g none t).Ends t (AnyText t)) := by
    have less := reaches.left_le
    rw [lost, missed, Nat.zero_sub]
    by_cases took : t.left < s.left
    · refine bind passes (by omega) (fun _ _ _ => ?_) t (reaches.within inside) trivial
      exact again.weaken (fun _ fine => fine) (by omega) (by omega) fun _ _ _ _ _ _ _ _ _ => trivial
    · have same : t.current = s.current := reaches.current (by omega)
      refine bind skips (by omega) (fun _ _ _ => ?_) t (reaches.within inside) (same ▸ here)
      exact again.weaken (fun _ fine => fine) (by omega) (by omega) fun _ _ _ _ _ _ _ _ _ => trivial
  refine ⟨.attempt inside fits below (fun value t fine within => (kept value t fine within).1)
      fun t reaches => (skipped t reaches).1,
    .attempt inside fits.lands impartial
      (fun value t fine within => (kept value t fine within).2.1)
      fun t reaches => (skipped t reaches).2.1,
    fun proper => .attempt (ends proper) (fun value t ran => ?_) fun t ran => ?_⟩
  · have lands := fits.lands
    rw [ran] at lands
    exact (kept value t (lands.value value t rfl).1 (lands.reaches.within inside)).2.2
      (lands.reaches.proper proper)
  · have lands := fits.lands
    rw [ran] at lands
    exact (skipped t lands.reaches).2.2 (lands.reaches.proper proper)

/-- No steps are allowed. -/
theorem exhausted (none : budget < 0) :
    Reads source pre post text taken budget Parser.exhausted Parser.exhausted :=
  fun _ _ _ => ⟨.exhausted ⟨.refl, False.elim, by simp [Parser.exhausted]⟩ none, fun _ => rfl,
    fun _ => trivial⟩

/-- No steps are allowed, as against some. -/
theorem starved (reads : Reads source pre post text taken larger p q) (none : budget < 0) :
    Reads source pre post text taken budget Parser.exhausted q :=
  fun s inside here => ⟨.exhausted (reads s inside here).1.lands none, (reads s inside here).2⟩

end Parser.Reads

/-- A smaller and a larger number of steps are compared step by step, from the larger one down. -/
theorem steps_induction {motive : (n m : Nat) → n ≤ m → Prop} (start : motive 0 0 (Nat.le_refl 0))
    (none : ∀ n m le, motive n m le → motive 0 m (Nat.zero_le m))
    (step : ∀ n m le, motive n m le → motive (n + 1) (m + 1) (Nat.succ_le_succ le)) (n m : Nat)
    (le : n ≤ m) : motive n m le := by
  induction m generalizing n with
  | zero =>
    obtain rfl := Nat.le_zero.mp le
    exact start
  | succ m ih =>
    cases n with
    | zero => exact none 1 (m + 1) _ (step 0 m _ (ih 0 (Nat.zero_le m)))
    | succ n => exact step n m _ (ih n (Nat.le_of_succ_le_succ le))

end Syntax

end Idl
