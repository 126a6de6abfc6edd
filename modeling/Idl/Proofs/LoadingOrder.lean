import Idl.Program.Loading
import Idl.Proofs.ReadingRounds
import Mathlib.Data.List.Nodup
import Mathlib.Data.List.Perm.Subperm
import Mathlib.Logic.Relation

/-! The order in which the files of a program are loaded. Files are asked for in a queue, and
a path counts only the first time it comes up, so the files come in the order in which
a search in breadth meets them: what is met first comes first, and what is fewer imports
away from the roots comes before what is more. The order is said without the queue, by
what is imported and where it is met first, and these say it completely. Loading goes
along this order up to the first file that cannot be read, or that cannot be read to its
end. -/
namespace Idl

/-! ### Orders in breadth -/

section Breadth

/-- What is so many imports away from the roots. -/
def Away (roots : List α) (imports : α → List α) : Nat → α → Prop
  | 0, path => path ∈ roots
  | steps + 1, path => ∃ importer, Away roots imports steps importer ∧ path ∈ imports importer

/-- What the roots are and lead to by imports. -/
def Leads (roots : List α) (imports : α → List α) (path : α) : Prop :=
  ∃ root ∈ roots, Relation.ReflTransGen (fun importer path => path ∈ imports importer) root path

variable {imports : α → List α}

theorem Away.leads (away : Away roots imports steps path) : Leads roots imports path := by
  induction steps generalizing path with
  | zero => exact ⟨path, away, .refl⟩
  | succ steps ih =>
    obtain ⟨importer, near, imported⟩ := away
    obtain ⟨root, member, way⟩ := ih near
    exact ⟨root, member, way.tail imported⟩

/-- A list that holds the roots and what each member imports holds what they lead to. -/
theorem mem_of_leads {l : List α} (held : ∀ root ∈ roots, root ∈ l)
    (closed : ∀ path ∈ l, ∀ next ∈ imports path, next ∈ l) (leads : Leads roots imports path) :
    path ∈ l := by
  obtain ⟨root, member, way⟩ := leads
  induction way with
  | refl => exact held root member
  | tail _ imported ih => exact closed _ ih _ imported

variable [DecidableEq α]

theorem nodup_eraseDups (l : List α) : l.eraseDups.Nodup := by
  -- What is left to look at is shorter, but no tail of the list.
  induction length : l.length using Nat.strongRecOn generalizing l with
  | ind n ih =>
    cases l with
    | nil => simp
    | cons first rest =>
      rw [List.eraseDups_cons, List.nodup_cons]
      refine ⟨by simp, ih _ ?_ _ rfl⟩
      have := List.length_filter_le (fun b => !b == first) rest
      simp only [List.length_cons] at length
      omega

/-- What is met in the first part of a list comes before what is not. -/
theorem pairwise_eraseDups_append (first second : List α) :
    (first ++ second).eraseDups.Pairwise fun one two => two ∈ first → one ∈ first := by
  rw [List.eraseDups_append, List.pairwise_append]
  refine ⟨?_, ?_, ?_⟩
  · exact (nodup_eraseDups _).pairwise_of_forall_ne fun one member two _ _ _ => by simpa using member
  · refine (nodup_eraseDups _).pairwise_of_forall_ne fun one _ two member _ met => ?_
    simp only [List.mem_eraseDups, List.removeAll, List.mem_filter] at member
    simp [met] at member
  · intro one member two _ _
    simpa using member

/-- The order in which a search in breadth meets what the roots lead to. -/
structure BreadthFirst (roots : List α) (imports : α → List α) (order : List α) : Prop where
  once : order.Nodup
  reached : ∀ path, path ∈ order ↔ Leads roots imports path
  /-- The roots come first, then what each one in turn imports, at the place where it is met first. -/
  discovered : order = (roots ++ order.flatMap imports).eraseDups
  /-- What is nearer to the roots comes before what is farther away. -/
  nearer : order.Pairwise fun one two =>
    ∀ steps, Away roots imports steps two → ∃ fewer ≤ steps, Away roots imports fewer one

/-- An order of discovery without strangers is one in breadth. -/
theorem BreadthFirst.of_discovered (discovered : order = (roots ++ order.flatMap imports).eraseDups)
    (leads : ∀ path ∈ order, Leads roots imports path) : BreadthFirst roots imports order := by
  have mem (path : α) : path ∈ order ↔ path ∈ roots ∨ ∃ importer ∈ order, path ∈ imports importer := by
    rw [discovered, List.mem_eraseDups, List.mem_append, List.mem_flatMap, ← discovered]
  have all (path : α) (away : Leads roots imports path) : path ∈ order :=
    mem_of_leads (fun root member => (mem root).mpr (.inl member))
      (fun importer member next imported => (mem next).mpr (.inr ⟨importer, member, imported⟩)) away
  refine ⟨by rw [discovered]; exact nodup_eraseDups _, fun path => ⟨leads path, all path⟩,
    discovered, ?_⟩
  -- What a list `first` of the first members imports is met before the rest.
  have early (first second : List α) (split : order = first ++ second) : order.Pairwise
      fun one two => two ∈ roots ++ first.flatMap imports → one ∈ roots ++ first.flatMap imports := by
    have pairs := pairwise_eraseDups_append (roots ++ first.flatMap imports) (second.flatMap imports)
    rw [List.append_assoc, ← List.flatMap_append, ← split, ← discovered] at pairs
    exact pairs
  rw [List.pairwise_iff_forall_sublist]
  intro one two before steps
  induction steps generalizing one two with
  | zero =>
    intro root
    have pairs := List.pairwise_iff_forall_sublist.mp (early [] order rfl) before
    have first : one ∈ roots := by simpa using pairs (List.mem_append_left _ root)
    exact ⟨0, Nat.le_refl 0, first⟩
  | succ steps ih =>
    rintro ⟨importer, away, imported⟩
    obtain ⟨first, second, split⟩ := List.append_of_mem (all importer away.leads)
    have pairs := List.pairwise_iff_forall_sublist.mp
      (early (first ++ [importer]) second (by simp [split])) before
    have met := pairs (List.mem_append_right _ (List.mem_flatMap.mpr ⟨importer, by simp, imported⟩))
    rcases List.mem_append.mp met with root | met
    · exact ⟨0, Nat.zero_le _, root⟩
    · obtain ⟨finder, member, found⟩ := List.mem_flatMap.mp met
      rcases List.mem_append.mp member with member | member
      · have ahead : List.Sublist [finder, importer] order := by
          rw [split]
          exact (List.singleton_sublist.mpr member).append
            (List.singleton_sublist.mpr (List.mem_cons_self ..))
        obtain ⟨fewer, less, near⟩ := ih ahead away
        exact ⟨fewer + 1, by omega, finder, near, found⟩
      · obtain rfl := List.mem_singleton.mp member
        exact ⟨steps + 1, Nat.le_refl _, finder, away, found⟩

namespace BreadthFirst

/-- The first members and what they import stand in front of an order. -/
theorem isPrefix (breadth : BreadthFirst roots imports order) (count : Nat) :
    (roots ++ (order.take count).flatMap imports).eraseDups <+: order := by
  have whole : order = ((roots ++ (order.take count).flatMap imports) ++
      (order.drop count).flatMap imports).eraseDups := by
    rw [List.append_assoc, ← List.flatMap_append, List.take_append_drop, ← breadth.discovered]
  rw [List.eraseDups_append] at whole
  exact ⟨_, whole.symm⟩

/-- The first members tell the next one, as long as there is one. -/
theorem more (breadth : BreadthFirst roots imports order) {count : Nat}
    (inside : count < order.length) :
    count < (roots ++ (order.take count).flatMap imports).eraseDups.length := by
  refine Nat.lt_of_not_le fun few => ?_
  have within : ∀ path ∈ roots ++ (order.take count).flatMap imports, path ∈ order.take count := by
    intro path member
    have met := List.mem_eraseDups.mpr member
    rw [List.prefix_iff_eq_take.mp (breadth.isPrefix count)] at met
    exact List.take_subset_take_left _ few met
  have whole : order ⊆ order.take count := fun path member =>
    mem_of_leads (fun root given => within root (List.mem_append_left _ given))
      (fun importer held next imported => within next (List.mem_append_right _
        (List.mem_flatMap.mpr ⟨importer, held, imported⟩))) ((breadth.reached path).mp member)
  have fits := (List.Nodup.subperm breadth.once whole).length_le
  rw [List.length_take] at fits
  omega

/-- There is one order in breadth. -/
theorem unique (one : BreadthFirst roots imports order) (two : BreadthFirst roots imports other) :
    other = order := by
  have length : other.length = order.length :=
    ((List.perm_ext_iff_of_nodup two.once one.once).mpr
      fun path => (two.reached path).trans (one.reached path).symm).length_eq
  have agree (count : Nat) (inside : count ≤ order.length) : other.take count = order.take count := by
    induction count with
    | zero => rfl
    | succ count ih =>
      have same := ih (by omega)
      have next {l : List α} (begun : (roots ++ (order.take count).flatMap imports).eraseDups <+: l) :
          l.take (count + 1) =
            (roots ++ (order.take count).flatMap imports).eraseDups.take (count + 1) := by
        obtain ⟨rest, rfl⟩ := begun
        exact List.take_append_of_le_length (one.more inside)
      have begun := two.isPrefix count
      rw [same] at begun
      rw [next begun, next (one.isPrefix count)]
  have whole := agree order.length (Nat.le_refl _)
  rwa [List.take_length, ← length, List.take_length] at whole

end BreadthFirst

end Breadth

/-! ### What a file imports -/

namespace Host

/-- The file at a path as a program holds it under a number, if it can be read to its end. -/
def sourceFile? (host : Host) (id : FileId) (path : Path) : Option SourceFile :=
  match host.get? path with
  | some (.text contents) => (Script.read id contents).map fun parsed =>
      { id, path, fingerprint := fingerprint contents, script := parsed.1 }
  | _ => none

/-- A path with a text that can be read to its end. -/
def Opens (host : Host) (path : Path) : Prop := (host.sourceFile? .library path).isSome

/-- A path with a text that cannot be read to its end. -/
def Endless (host : Host) (path : Path) : Prop :=
  ∃ contents, host.get? path = some (.text contents) ∧ Script.read .library contents = none

/-- A path without a text: nothing is there, or it cannot be read. -/
def Shut (host : Host) (path : Path) : Prop := ∀ contents, host.get? path ≠ some (.text contents)

/-- The error for a path without a text. What is missing is blamed on the file that imports it. -/
def blame (host : Host) (path : Path) (importer : Option Path) : LoadError :=
  match host.get? path with
  | some (.unreadable reason) => .sourceUnreadable path.text (.unreadable path.text reason)
  | _ => .sourceNotFound path.text (importer.map Path.text)

/-- The paths that a file imports. -/
def importsOf (host : Host) (path : Path) : List Path :=
  match host.sourceFile? .library path with
  | none => []
  | some file => file.script.imports.map fun decl => path.resolveImport decl.path

variable {host : Host} {id : FileId}

theorem opens_or (host : Host) (path : Path) : host.Opens path ∨ host.Endless path ∨ host.Shut path := by
  by_cases held : ∃ contents, host.get? path = some (.text contents)
  · obtain ⟨contents, held⟩ := held
    cases read : Script.read .library contents with
    | none => exact .inr (.inl ⟨contents, held, read⟩)
    | some parsed => exact .inl (by simp [Opens, sourceFile?, *])
  · exact .inr (.inr fun contents text => held ⟨contents, text⟩)

/-- A text that can be read under one number can be read under each. -/
theorem Opens.read (opens : host.Opens path) (id : FileId) : ∃ contents parsed,
    host.get? path = some (.text contents) ∧ Script.read id contents = some parsed := by
  unfold Opens sourceFile? at opens
  split at opens
  · obtain ⟨parsed, read⟩ := Option.isSome_iff_exists.mp (by simpa using opens)
    exact ⟨_, _, ‹_›, by rw [Script.read_renumber .library id, read]; rfl⟩
  · cases opens

theorem Endless.read (endless : host.Endless path) (id : FileId) : ∃ contents,
    host.get? path = some (.text contents) ∧ Script.read id contents = none := by
  obtain ⟨contents, held, stuck⟩ := endless
  exact ⟨contents, held, by rw [Script.read_renumber .library id, stuck]; rfl⟩

theorem Endless.not_opens (endless : host.Endless path) : ¬ host.Opens path := by
  obtain ⟨contents, held, stuck⟩ := endless
  simp [Opens, sourceFile?, held, stuck]

theorem Shut.not_opens (shut : host.Shut path) : ¬ host.Opens path := by
  intro opens
  obtain ⟨contents, _, held, _⟩ := opens.read .library
  exact shut contents held

theorem Shut.readAs (shut : host.Shut path) (importer : Option Path) : ∃ cause,
    host.readAs path path.text = .error cause ∧
      LoadError.ofHost path.text (importer.map Path.text) cause = host.blame path importer := by
  unfold Host.readAs blame
  split
  · exact absurd ‹_› (shut _)
  · exact ⟨_, rfl, by simp [LoadError.ofHost, *]⟩
  · exact ⟨_, rfl, by simp [LoadError.ofHost, *]⟩

theorem importsOf_of_not_mem (absent : path ∉ host.keys) : host.importsOf path = [] := by
  unfold importsOf sourceFile?
  cases held : host.get? path with
  | none => rfl
  | some file => exact absurd (Dictionary.mem_keys_of_get? held) absent

end Host

namespace Loading

/-! ### The first request for each path -/

/-- What a file asks for. -/
def requests (host : Host) (path : Path) : List SourceRequest :=
  (host.importsOf path).map fun imported => ⟨imported, some path⟩

/-- The first request for each path that has not been seen. -/
def firsts : List Path → List SourceRequest → List SourceRequest
  | _, [] => []
  | seen, request :: rest =>
    if request.path ∈ seen then firsts seen rest else request :: firsts (request.path :: seen) rest

theorem seen_of_next? (done : next? seen queue = none) : ∀ request ∈ queue, request.path ∈ seen := by
  induction queue with
  | nil => simp
  | cons first others ih =>
    rw [next?] at done
    split at done
    · exact List.forall_mem_cons.mpr ⟨‹_›, ih done⟩
    · cases done

theorem split_of_next? (found : next? seen queue = some (request, rest)) :
    ∃ skipped, (∀ request ∈ skipped, request.path ∈ seen) ∧ queue = skipped ++ request :: rest := by
  induction queue with
  | nil => cases found
  | cons first others ih =>
    rw [next?] at found
    split at found
    · obtain ⟨skipped, old, split⟩ := ih found
      exact ⟨first :: skipped, List.forall_mem_cons.mpr ⟨‹_›, old⟩, by rw [split]; rfl⟩
    · cases found
      exact ⟨[], by simp, rfl⟩

theorem firsts_append_of_seen (old : ∀ request ∈ skipped, request.path ∈ seen)
    (l : List SourceRequest) : firsts seen (skipped ++ l) = firsts seen l := by
  induction skipped with
  | nil => rfl
  | cons first others ih =>
    rw [List.cons_append, firsts, if_pos (old first (by simp)),
      ih fun request member => old request (by simp [member])]

theorem map_path_firsts (seen : List Path) (l : List SourceRequest) :
    (firsts seen l).map (·.path) = ((l.map (·.path)).filter (· ∉ seen)).eraseDups := by
  induction l generalizing seen with
  | nil => rfl
  | cons first others ih =>
    rw [firsts]
    split
    · rw [ih, List.map_cons, List.filter_cons_of_neg (by simpa)]
    · rw [List.map_cons, ih, List.map_cons, List.filter_cons_of_pos (by simpa), List.eraseDups_cons,
        List.filter_filter]
      congr 3
      funext path
      simp [beq_eq_decide]

theorem fresh_of_mem_firsts (member : request ∈ firsts seen l) : request.path ∉ seen := by
  have listed := List.mem_map_of_mem (f := (·.path)) member
  rw [map_path_firsts] at listed
  simpa using (List.mem_filter.mp (List.mem_eraseDups.mp listed)).2

theorem find?_of_mem_firsts (member : request ∈ firsts seen l) :
    l.find? (·.path = request.path) = some request := by
  induction l generalizing seen with
  | nil => cases member
  | cons first others ih =>
    have other (fresh : first.path ≠ request.path) (among : ∃ seen, request ∈ firsts seen others) :
        (first :: others).find? (·.path = request.path) = some request := by
      obtain ⟨seen, among⟩ := among
      rw [List.find?_cons_of_neg (by simpa), ih among]
    rw [firsts] at member
    split at member
    · exact other (fun same => fresh_of_mem_firsts member (same ▸ ‹_›)) ⟨_, member⟩
    · rcases List.mem_cons.mp member with rfl | member
      · rw [List.find?_cons_of_pos (by simp)]
      · exact other (fun same => fresh_of_mem_firsts member (by simp [same])) ⟨_, member⟩

/-! ### The requests that are followed -/

theorem unseen_le (host : Host) (path : Path) (seen : List Path) :
    (unseen host (path :: seen)).length ≤ (unseen host seen).length := by
  refine (List.monotone_filter_right host.keys fun other fresh => ?_).length_le
  simp only [List.mem_cons, decide_eq_true_eq] at fresh ⊢
  exact fun met => fresh (.inr met)

/-- The requests that are followed in turn. A file that cannot be read asks for nothing. -/
def visits (host : Host) (queue : List SourceRequest) (seen : List Path) : List SourceRequest :=
  match _next : next? seen queue with
  | none => []
  | some (request, rest) =>
    request :: visits host (rest ++ requests host request.path) (request.path :: seen)
termination_by ((unseen host seen).length, queue.length)
decreasing_by
  by_cases held : request.path ∈ host.keys
  · exact Prod.Lex.left _ _ (unseen_shorter held (fresh_of_next? _next))
  · rw [requests, Host.importsOf_of_not_mem held, List.map_nil, List.append_nil]
    rcases Nat.lt_or_eq_of_le (unseen_le host request.path seen) with less | same
    · exact Prod.Lex.left _ _ less
    · obtain ⟨skipped, _, split⟩ := split_of_next? _next
      rw [same]
      exact Prod.Lex.right _ (by simp only [split, List.length_append, List.length_cons]; omega)

theorem visits_of_next?_none (done : next? seen queue = none) : visits host queue seen = [] := by
  rw [visits]
  split
  · rfl
  · simp_all

theorem visits_of_next? (found : next? seen queue = some (request, rest)) :
    visits host queue seen =
      request :: visits host (rest ++ requests host request.path) (request.path :: seen) := by
  rw [visits]
  split
  · simp_all
  · rename_i found'
    cases found.symm.trans found'
    rfl

/-- Each request that is followed is the first one for its path, among those that are asked for
from outside and those of the files before it. -/
theorem visits_eq_firsts (host : Host) (queue : List SourceRequest) (seen : List Path) :
    visits host queue seen =
      firsts seen (queue ++ (visits host queue seen).flatMap fun visit => requests host visit.path) := by
  induction queue, seen using visits.induct host with
  | case1 queue seen done =>
    rw [visits_of_next?_none done, List.flatMap_nil, firsts_append_of_seen (seen_of_next? done)]
    rfl
  | case2 queue seen request rest found ih =>
    obtain ⟨skipped, old, split⟩ := split_of_next? found
    rw [visits_of_next? found, split, List.append_assoc, firsts_append_of_seen old, List.cons_append,
      firsts, if_neg (fresh_of_next? found), List.flatMap_cons, ← List.append_assoc, ← ih]

/-- Whatever is true of what is asked for from outside, and of what a file imports where it is
true of the file, is true of all that is followed. -/
theorem forall_visits {property : Path → Prop}
    (step : ∀ path, property path → ∀ next ∈ host.importsOf path, property next)
    (given : ∀ request ∈ queue, property request.path) :
    ∀ visit ∈ visits host queue seen, property visit.path := by
  induction queue, seen using visits.induct host with
  | case1 queue seen done => simp [visits_of_next?_none done]
  | case2 queue seen request rest found ih =>
    obtain ⟨skipped, _, rfl⟩ := split_of_next? found
    rw [visits_of_next? found, List.forall_mem_cons]
    have first := given request (by simp)
    refine ⟨first, ih fun one among => ?_⟩
    rcases List.mem_append.mp among with waiting | asked
    · exact given one (by simp [waiting])
    · obtain ⟨imported, listed, rfl⟩ := List.mem_map.mp asked
      exact step _ first _ listed

/-! ### Loading along an order -/

/-- Loads what is asked for, in turn, and nothing else. -/
def follow (host : Host) (options : Options) : List SourceRequest → Loading →
    Option (Loading × Option LoadError)
  | [], loading => some (loading, none)
  | request :: rest, loading =>
    match host.readAs request.path request.path.text with
    | .error cause =>
      some (loading.ask request.path,
        some (.ofHost request.path.text (request.importedFrom.map Path.text) cause))
    | .ok contents =>
      match Script.read ⟨loading.nextId⟩ contents with
      | none => none
      | some parsed =>
        follow host options rest
          ((loading.ask request.path).add options request.path contents parsed)

/-- Loading is following the first request for each path. -/
theorem run_eq_follow (host : Host) (options : Options) (queue : List SourceRequest)
    (seen : List Path) (loading : Loading) :
    run host options queue seen loading = follow host options (visits host queue seen) loading := by
  induction queue, seen, loading using run.induct host options with
  | case1 queue seen loading done =>
    rw [visits_of_next?_none done, follow, run]
    split <;> simp_all
  | case2 queue seen loading request rest found cause ran =>
    rw [visits_of_next? found, follow, run, ran]
    split
    · simp_all
    · split <;> simp_all
  | case3 queue seen loading request rest found asked contents ran stuck =>
    have stuck : Script.read ⟨loading.nextId⟩ contents = none := stuck
    rw [visits_of_next? found, follow, run, ran]
    split
    · simp_all
    · split <;> simp_all [ask]
  | case4 queue seen loading request rest found asked contents ran parsed read ih =>
    have held : host.get? request.path = some (.text contents) := by
      unfold Host.readAs at ran
      split at ran <;> simp_all
    have same : requestsOf request.path parsed.1 = requests host request.path := by
      rw [requests, Host.importsOf, Host.sourceFile?, held]
      simp [Script.read_renumber ⟨asked.nextId⟩ .library, read, requestsOf, Function.comp_def]
    have read : Script.read ⟨loading.nextId⟩ contents = some parsed := read
    rw [same] at ih
    rw [visits_of_next? found, follow, run, ran]
    split
    · simp_all
    · split <;> simp_all [asked, ask]

/-- Loading has gone on by the files of a list. -/
structure Gained (host : Host) (front : List Path) (loading later : Loading) : Prop where
  files : ∃ files, later.files = loading.files ++ files ∧
    files.map (fun file => (file.id, file.path)) =
      (front.zipIdx loading.nextId).map (fun entry => (⟨entry.2⟩, entry.1)) ∧
    ∀ file ∈ files, host.sourceFile? file.id file.path = some file
  nextId : later.nextId = loading.nextId + front.length
  asked : later.asked = loading.asked ++ front

/-- Files that open are loaded, each under the next number. -/
theorem follow_append (front rest : List SourceRequest) (loading : Loading)
    (opens : ∀ request ∈ front, host.Opens request.path) :
    ∃ later, Gained host (front.map (·.path)) loading later ∧
      follow host options (front ++ rest) loading = follow host options rest later := by
  induction front generalizing loading with
  | nil => exact ⟨loading, ⟨⟨[], by simp⟩, rfl, by simp⟩, rfl⟩
  | cons request front ih =>
    obtain ⟨contents, parsed, held, read⟩ := (opens request (by simp)).read ⟨loading.nextId⟩
    obtain ⟨later, gained, followed⟩ :=
      ih ((loading.ask request.path).add options request.path contents parsed)
        fun one member => opens one (by simp [member])
    obtain ⟨files, more, numbered, same⟩ := gained.files
    refine ⟨later, ⟨⟨⟨⟨loading.nextId⟩, request.path, fingerprint contents, parsed.1⟩ :: files, ?_, ?_, ?_⟩,
      ?_, ?_⟩, ?_⟩
    · rw [more]
      simp [add, ask]
    · simpa [add, ask] using numbered
    · refine List.forall_mem_cons.mpr ⟨?_, same⟩
      simp [Host.sourceFile?, held, read]
    · rw [gained.nextId]
      simp [add, ask]
      omega
    · rw [gained.asked]
      simp [add, ask]
    · rw [List.cons_append, follow, Host.readAs, held]
      simp only [read]
      exact followed

/-- A path without a text ends loading. -/
theorem follow_shut (shut : host.Shut request.path) (loading : Loading) :
    follow host options (request :: rest) loading =
      some (loading.ask request.path, some (host.blame request.path request.importedFrom)) := by
  obtain ⟨cause, ran, blamed⟩ := shut.readAs request.importedFrom
  rw [follow, ran, ← blamed]

/-- A text that cannot be read to its end keeps loading from ending. -/
theorem follow_endless (endless : host.Endless request.path) (loading : Loading) :
    follow host options (request :: rest) loading = none := by
  obtain ⟨contents, held, stuck⟩ := endless.read ⟨loading.nextId⟩
  rw [follow, Host.readAs, held]
  simp only [stuck]

/-! ### Who is blamed -/

/-- The first file of an order that imports a path. A root is asked for without a file. -/
def importer (host : Host) (roots order : List Path) (path : Path) : Option Path :=
  if path ∈ roots then none else order.find? fun file => path ∈ host.importsOf file

theorem importedFrom_of_mem_visits (plain : ∀ request ∈ queue, request.importedFrom = none)
    (member : visit ∈ visits host queue []) : visit.importedFrom =
      importer host (queue.map (·.path)) ((visits host queue []).map (·.path)) visit.path := by
  rw [visits_eq_firsts] at member
  have found := find?_of_mem_firsts member
  rw [List.find?_append] at found
  by_cases root : visit.path ∈ queue.map (·.path)
  · rw [importer, if_pos root]
    obtain ⟨request, asked, same⟩ := List.mem_map.mp root
    cases met : queue.find? (·.path = visit.path) with
    | none => exact absurd same (by simpa using List.find?_eq_none.mp met request asked)
    | some first =>
      rw [met, Option.some_or, Option.some_inj] at found
      exact found ▸ plain first (List.mem_of_find?_eq_some met)
  · have none : queue.find? (·.path = visit.path) = none :=
      List.find?_eq_none.mpr fun request asked => by
        simpa using fun same => root (List.mem_map.mpr ⟨request, asked, same⟩)
    rw [none, Option.none_or, List.find?_flatMap] at found
    obtain ⟨before, file, after, split, asked, earlier⟩ := List.findSome?_eq_some_iff.mp found
    obtain ⟨imported, listed, rfl⟩ := List.mem_map.mp (List.mem_of_find?_eq_some asked)
    have first : ((visits host queue []).map (·.path)).find? (fun path => imported ∈ host.importsOf path) =
        some file.path := by
      have absent : (before.map (·.path)).find? (fun path => imported ∈ host.importsOf path) = .none := by
        rw [List.find?_eq_none, List.forall_mem_map]
        intro other member
        have unasked := List.find?_eq_none.mp (earlier other member) ⟨imported, some other.path⟩
        simpa [requests] using unasked
      rw [split, List.map_append, List.find?_append, absent, Option.none_or, List.map_cons,
        List.find?_cons_of_pos (by simpa using listed)]
    rw [importer, if_neg root, first]

/-! ### The order of a program -/

theorem breadthFirst_visits (host : Host) (queue : List SourceRequest) :
    BreadthFirst (queue.map (·.path)) host.importsOf ((visits host queue []).map (·.path)) := by
  refine .of_discovered ?_ ?_
  · have whole := congrArg (List.map (·.path)) (visits_eq_firsts host queue [])
    rw [map_path_firsts] at whole
    simpa [requests, List.flatMap_map, List.map_flatMap, Function.comp_def] using whole
  · rw [List.forall_mem_map]
    refine forall_visits (fun path leads next imported => ?_) fun request asked =>
      ⟨request.path, List.mem_map_of_mem asked, .refl⟩
    obtain ⟨root, member, way⟩ := leads
    exact ⟨root, member, way.tail imported⟩

/-- What has been loaded is the library, if it is wanted, and the files of an order. -/
structure Holds (host : Host) (options : Options) (order : List Path) (loading : Loading) : Prop where
  /-- The library has number 0, and the files have the numbers from 1 on, in their order. -/
  numbered : loading.files.map (fun file => (file.id, file.path)) =
    (if options.nostdlib then [] else [(⟨0⟩, Path.ofString StandardLibrary.path)]) ++
      (order.zipIdx 1).map fun entry => (⟨entry.2⟩, entry.1)
  /-- What is not the library is as the host has it. -/
  read : ∀ file ∈ loading.files, file.id ≠ .library →
    host.sourceFile? file.id file.path = some file

theorem Gained.holds (gained : Gained host front (start options) later) :
    Holds host options front later := by
  obtain ⟨files, more, numbered, held⟩ := gained.files
  have first : (start options).nextId = 1 := by
    unfold start
    split <;> rfl
  have library : (start options).files.map (fun file => (file.id, file.path)) =
      if options.nostdlib then [] else [(⟨0⟩, Path.ofString StandardLibrary.path)] := by
    unfold start
    split <;> rfl
  refine ⟨by rw [more, List.map_append, library, numbered, first], fun file member foreign => ?_⟩
  rcases List.mem_append.mp (more ▸ member) with begun | loaded
  · have entry := List.mem_map_of_mem (f := fun file => (file.id, file.path)) begun
    rw [library] at entry
    split at entry
    · cases entry
    · exact absurd (congrArg Prod.fst (List.mem_singleton.mp entry)) foreign
  · exact held file loaded

/-- The first path of an order that does not open, and those before it. -/
def Stops (host : Host) (order before : List Path) (path : Path) : Prop :=
  (∃ after, order = before ++ path :: after) ∧ (∀ earlier ∈ before, host.Opens earlier) ∧
    ¬ host.Opens path

theorem Stops.mem (stops : Stops host order before path) : path ∈ order := by
  obtain ⟨⟨after, rfl⟩, _⟩ := stops
  simp

/-- An order opens as a whole, or there is a first path that does not. -/
theorem opens_or_stops (host : Host) (order : List Path) : (∀ path ∈ order, host.Opens path) ∨
      (∃ before path, Stops host order before path ∧ host.Endless path) ∨
      ∃ before path, Stops host order before path ∧ host.Shut path := by
  induction order with
  | nil => exact .inl (by simp)
  | cons first others ih =>
    have later {before : List Path} {path : Path} (opens : host.Opens first)
        (stops : Stops host others before path) : Stops host (first :: others) (first :: before) path := by
      obtain ⟨⟨after, split⟩, earlier, closed⟩ := stops
      exact ⟨⟨after, by rw [split]; rfl⟩, List.forall_mem_cons.mpr ⟨opens, earlier⟩, closed⟩
    rcases host.opens_or first with opens | endless | shut
    · rcases ih with all | ⟨before, path, stops, endless⟩ | ⟨before, path, stops, shut⟩
      · exact .inl (List.forall_mem_cons.mpr ⟨opens, all⟩)
      · exact .inr (.inl ⟨first :: before, path, later opens stops, endless⟩)
      · exact .inr (.inr ⟨first :: before, path, later opens stops, shut⟩)
    · exact .inr (.inl ⟨[], first, ⟨⟨others, rfl⟩, by simp, endless.not_opens⟩, endless⟩)
    · exact .inr (.inr ⟨[], first, ⟨⟨others, rfl⟩, by simp, shut.not_opens⟩, shut⟩)

/-- What loading along an order comes to. -/
structure EndsAlong (host : Host) (options : Options) (roots order : List Path)
    (outcome : Option (Loading × Option LoadError)) : Prop where
  /-- Loading does not end where a text cannot be read to its end and each one before it can. -/
  endless_iff : outcome = none ↔ ∃ before path, Stops host order before path ∧ host.Endless path
  succeeds_iff : (∃ loading, outcome = some (loading, none)) ↔ ∀ path ∈ order, host.Opens path
  /-- Each file has been asked for once, in its turn. -/
  success : ∀ loading, outcome = some (loading, none) →
    Holds host options order loading ∧ loading.asked = order
  fails_iff : (∃ loading error, outcome = some (loading, some error)) ↔
    ∃ before path, Stops host order before path ∧ host.Shut path
  /-- The first path without a text is blamed. -/
  failure : ∀ loading error, outcome = some (loading, some error) →
    ∃ before path, Stops host order before path ∧ host.Shut path ∧
      error = host.blame path (importer host roots order path) ∧
      Holds host options before loading ∧ loading.asked = before ++ [path]
  /-- Where each text can be read to its end, loading ends, and it fails if there is a path
  without a text. -/
  ends : (∀ path ∈ order, ¬ host.Endless path) → outcome ≠ none ∧
    ((∃ loading error, outcome = some (loading, some error)) ↔ ∃ path ∈ order, host.Shut path)

theorem EndsAlong.of_cases {roots : List Path}
    (all : (∀ path ∈ order, host.Opens path) → ∃ loading, outcome = some (loading, none) ∧
      Holds host options order loading ∧ loading.asked = order)
    (shut : ∀ before path, Stops host order before path → host.Shut path → ∃ loading,
      outcome = some (loading, some (host.blame path (importer host roots order path))) ∧
        Holds host options before loading ∧ loading.asked = before ++ [path])
    (endless : ∀ before path, Stops host order before path → host.Endless path → outcome = none) :
    EndsAlong host options roots order outcome := by
  -- The three cases exclude each other by what they say of the outcome.
  have endless_of (unended : outcome = none) :
      ∃ before path, Stops host order before path ∧ host.Endless path := by
    rcases opens_or_stops host order with opens | stuck | ⟨before, path, stops, closed⟩
    · obtain ⟨loading, done, _⟩ := all opens
      cases unended.symm.trans done
    · exact stuck
    · obtain ⟨loading, failed, _⟩ := shut before path stops closed
      cases unended.symm.trans failed
  have opens_of {loading : Loading} (done : outcome = some (loading, none)) :
      ∀ path ∈ order, host.Opens path := by
    rcases opens_or_stops host order with opens | ⟨before, path, stops, stuck⟩ | ⟨before, path, stops, closed⟩
    · exact opens
    · cases done.symm.trans (endless before path stops stuck)
    · obtain ⟨loading, failed, _⟩ := shut before path stops closed
      cases done.symm.trans failed
  have shut_of {loading : Loading} {error : LoadError} (failed : outcome = some (loading, some error)) :
      ∃ before path, Stops host order before path ∧ host.Shut path := by
    rcases opens_or_stops host order with opens | ⟨before, path, stops, stuck⟩ | closed
    · obtain ⟨loading, done, _⟩ := all opens
      cases failed.symm.trans done
    · cases failed.symm.trans (endless before path stops stuck)
    · exact closed
  refine ⟨⟨endless_of, ?_⟩, ⟨?_, ?_⟩, ?_, ⟨?_, ?_⟩, ?_, fun ending => ⟨?_, ?_, ?_⟩⟩
  · rintro ⟨before, path, stops, stuck⟩
    exact endless before path stops stuck
  · rintro ⟨loading, done⟩
    exact opens_of done
  · intro opens
    obtain ⟨loading, done, _⟩ := all opens
    exact ⟨loading, done⟩
  · intro loading done
    obtain ⟨same, again, held⟩ := all (opens_of done)
    cases done.symm.trans again
    exact held
  · rintro ⟨loading, error, failed⟩
    exact shut_of failed
  · rintro ⟨before, path, stops, closed⟩
    obtain ⟨loading, failed, _⟩ := shut before path stops closed
    exact ⟨loading, _, failed⟩
  · intro loading error failed
    obtain ⟨before, path, stops, closed⟩ := shut_of failed
    obtain ⟨same, again, held⟩ := shut before path stops closed
    cases failed.symm.trans again
    exact ⟨before, path, stops, closed, rfl, held⟩
  · intro unended
    obtain ⟨before, path, stops, stuck⟩ := endless_of unended
    exact ending path stops.mem stuck
  · rintro ⟨loading, error, failed⟩
    obtain ⟨before, path, stops, closed⟩ := shut_of failed
    exact ⟨path, stops.mem, closed⟩
  · rintro ⟨path, member, closed⟩
    rcases opens_or_stops host order with
      opens | ⟨before, other, stops, stuck⟩ | ⟨before, other, stops, closed⟩
    · exact absurd (opens path member) closed.not_opens
    · exact absurd stuck (ending other stops.mem)
    · obtain ⟨loading, failed, _⟩ := shut before other stops closed
      exact ⟨loading, _, failed⟩

theorem endsAlong_visits (host : Host) (options : Options)
    (plain : ∀ request ∈ queue, request.importedFrom = none) :
    EndsAlong host options (queue.map (·.path)) ((visits host queue []).map (·.path))
      (run host options queue [] (start options)) := by
  have begun : (start options).asked = [] := by
    unfold start
    split <;> rfl
  -- Up to where the order stops, the requests are loaded.
  have front {before : List Path} {path : Path}
      (stops : Stops host ((visits host queue []).map (·.path)) before path) : ∃ visit rest later,
        visit ∈ visits host queue [] ∧ visit.path = path ∧ Gained host before (start options) later ∧
        run host options queue [] (start options) = follow host options (visit :: rest) later := by
    obtain ⟨⟨after, split⟩, opens, _⟩ := stops
    obtain ⟨first, second, whole, rfl, tail⟩ := List.map_eq_append_iff.mp split
    obtain ⟨visit, rest, rfl, rfl, rfl⟩ := List.map_eq_cons_iff.mp tail
    obtain ⟨later, gained, followed⟩ := follow_append first (visit :: rest) (start options)
      (List.forall_mem_map.mp opens)
    exact ⟨visit, rest, later, by simp [whole], rfl, gained, by rw [run_eq_follow, whole, followed]⟩
  refine .of_cases (fun opens => ?_) (fun before path stops shut => ?_) fun before path stops endless => ?_
  · obtain ⟨later, gained, followed⟩ := follow_append (visits host queue []) [] (start options)
      (List.forall_mem_map.mp opens)
    rw [List.append_nil] at followed
    refine ⟨later, by rw [run_eq_follow, followed, follow], gained.holds, ?_⟩
    rw [gained.asked, begun, List.nil_append]
  · obtain ⟨visit, rest, later, member, rfl, gained, followed⟩ := front stops
    rw [← importedFrom_of_mem_visits plain member]
    refine ⟨later.ask visit.path, by rw [followed, follow_shut shut], ⟨gained.holds.numbered,
      gained.holds.read⟩, ?_⟩
    rw [ask, gained.asked, begun, List.nil_append]
  · obtain ⟨visit, rest, later, _, rfl, _, followed⟩ := front stops
    rw [followed, follow_endless endless]

/-- The files of a program are the roots and what they lead to, in the order of a search in breadth,
of which there is one. Loading asks for each once, along that order, and ends as the order tells. -/
theorem ofEntry_breadthFirst (host : Host) (options : Options) (entry : String) :
    let roots := (options.additionalImports ++ [entry]).map fun path => (Path.ofString path).normalize
    ∃ order, BreadthFirst roots host.importsOf order ∧
      (∀ other, BreadthFirst roots host.importsOf other → other = order) ∧
      EndsAlong host options roots order (ofEntry host options entry) := by
  intro roots
  have paths : (Loading.roots options entry).map (·.path) = roots := by
    rw [Loading.roots, List.map_map]
    rfl
  have plain : ∀ request ∈ Loading.roots options entry, request.importedFrom = none := by
    unfold Loading.roots
    exact List.forall_mem_map.mpr fun _ _ => rfl
  have breadth := breadthFirst_visits host (Loading.roots options entry)
  have ends := endsAlong_visits host options plain
  rw [paths] at breadth ends
  exact ⟨_, breadth, fun other => breadth.unique, ends⟩

/-- A text that cannot be read to its end keeps the missing entry from being reported. -/
theorem ofEntry_never_ends :
    let host : Host := Dictionary.ofList
      [(Path.ofString "/broken.cadl", .text "model A \x7b a: b); \x7d")]
    host.Shut (Path.ofString "/gone.cadl") ∧
      ofEntry host { additionalImports := ["/broken.cadl"] } "/gone.cadl" = none := by
  intro host
  have missing : host.get? (Path.ofString "/gone.cadl") = none := by decide +kernel
  have endless : host.Endless (Path.ofString "/broken.cadl").normalize :=
    ⟨"model A \x7b a: b); \x7d", by decide +kernel, Option.isNone_iff_eq_none.mp (by decide +kernel)⟩
  constructor
  · intro contents held
    cases missing.symm.trans held
  · rw [ofEntry, run_eq_follow, visits_of_next? rfl, follow_endless endless]

end Loading

end Idl
