import JarRemap.Proofs.HierarchySearch

/-!
# Which entry a search finds

A search goes from a class to its supers, from left to right, and from each of them further upwards before it
comes to the next. It keeps one record of the classes that it has visited, for all branches, which neither hides an
entry nor changes which one is found first. Paths that come to no class twice are compared: of two paths the
one that goes to an earlier super where they part comes first, and a path comes before those that go on from its end.

Two facts carry the proof. No visited class has an entry. And the supers of a visited class are visited as well,
unless the search is still busy above the class; no path that is to be compared comes back to those classes.
-/
namespace JarRemap

open List

def Renamer.memberName? (renamer : Renamer) :
    MemberKind → (owner name descriptor : String) → Outcome (Option String)
  | .field => renamer.fieldName?
  | .method => renamer.methodName?

namespace ClassHierarchy

variable {hierarchies : List ClassHierarchy} {find? : String → Option String}
  {visited after waiting names choices trail path fewer : List String} {name answer : String}
  {result : Option String}

/-- A walk over classes in order that leaves out those in `visited` and goes upwards from each of the others
before it comes to the next. It ends at the first entry, or with none, and `after` has the classes that were
visited by then. -/
inductive Walked (hierarchies : List ClassHierarchy) (find? : String → Option String) :
    (visited names : List String) → (result : Option String) → (after : List String) → Prop
  | done {visited : List String} : Walked hierarchies find? visited [] none visited
  | skip {visited names after : List String} {name : String} {result : Option String} (seen : name ∈ visited)
    (later : Walked hierarchies find? visited names result after) :
    Walked hierarchies find? visited (name :: names) result after
  | here {visited names : List String} {name answer : String} (fresh : name ∉ visited)
    (entry : find? name = some answer) :
    Walked hierarchies find? visited (name :: names) (some answer) (name :: visited)
  | above {visited names after : List String} {name answer : String} (fresh : name ∉ visited)
    (absent : find? name = none)
    (upwards : Walked hierarchies find? (name :: visited) (superNames hierarchies name) (some answer) after) :
    Walked hierarchies find? visited (name :: names) (some answer) after
  | past {visited names middle after : List String} {name : String} {result : Option String}
    (fresh : name ∉ visited) (absent : find? name = none)
    (upwards : Walked hierarchies find? (name :: visited) (superNames hierarchies name) none middle)
    (later : Walked hierarchies find? middle names result after) :
    Walked hierarchies find? visited (name :: names) result after

theorem Walked.visited_subset (walked : Walked hierarchies find? visited names result after) : visited ⊆ after := by
  induction walked with
  | done => exact List.Subset.refl _
  | skip _ _ ih => exact ih
  | here => exact subset_cons_self _ _
  | above _ _ _ ih => exact (cons_subset.mp ih).2
  | past _ _ _ _ upwards later => exact List.Subset.trans (cons_subset.mp upwards).2 later

theorem pending_le_of_subset (visits : fewer ⊆ visited) :
    pending hierarchies visited waiting ≤ pending hierarchies fewer waiting := by
  refine Nat.add_le_add_left (Finset.sum_le_sum_of_subset ?_) _
  intro name listed
  simp only [Finset.mem_filter] at listed ⊢
  exact ⟨listed.1, fun seen => listed.2 (visits seen)⟩

/-- Every walk ends, also if the supers go round in cycles. The classes that a walk can still take off get fewer
with every class that it comes to, whether it passes the class over or goes upwards from it. -/
theorem exists_walked (hierarchies : List ClassHierarchy) (find? : String → Option String)
    (visited names : List String) : ∃ result after, Walked hierarchies find? visited names result after := by
  induction bound : pending hierarchies visited names using Nat.strong_induction_on generalizing visited names with
  | _ bound ih =>
    subst bound
    cases names with
    | nil => exact ⟨none, visited, .done⟩
    | cons name names =>
      by_cases seen : name ∈ visited
      · obtain ⟨result, after, later⟩ := ih _ (by rw [pending_skip]; omega) visited names rfl
        exact ⟨result, after, .skip seen later⟩
      cases entry : find? name with
      | some answer => exact ⟨some answer, _, .here seen entry⟩
      | none =>
        have fewer : pending hierarchies (name :: visited) (superNames hierarchies name) +
            names.length + 1 = pending hierarchies visited (name :: names) := by
          rw [pending_above seen, pending, pending, length_append]
          omega
        obtain ⟨result, middle, upwards⟩ := ih _ (by omega) (name :: visited)
          (superNames hierarchies name) rfl
        cases result with
        | some answer => exact ⟨some answer, middle, .above seen entry upwards⟩
        | none =>
          have rest : pending hierarchies middle names < pending hierarchies visited (name :: names) :=
            calc pending hierarchies middle names
              _ ≤ pending hierarchies visited names := pending_le_of_subset (cons_subset.mp upwards.visited_subset).2
              _ < pending hierarchies visited (name :: names) := by rw [pending_skip]; omega
          obtain ⟨result, after, later⟩ := ih _ rest middle names rfl
          exact ⟨result, after, .past seen entry upwards later⟩

/-- A search with more classes behind those of a walk ends with the walk, or goes on behind it. -/
theorem Walked.found_append (walked : Walked hierarchies find? visited names result after) :
    Found hierarchies find? visited (names ++ waiting) answer ↔
      result = some answer ∨ result = none ∧ Found hierarchies find? after waiting answer := by
  induction walked generalizing waiting with
  | done => simp
  | skip seen _ ih =>
    rw [← ih, cons_append]
    refine ⟨fun found => ?_, .skip seen⟩
    cases found with
    | skip _ later => exact later
    | here fresh | above fresh => exact absurd seen fresh
  | here fresh entry =>
    simp only [Option.some.injEq, reduceCtorEq, false_and, or_false, cons_append]
    refine ⟨fun found => ?_, fun same => .here fresh (same ▸ entry)⟩
    cases found with
    | skip seen => exact absurd seen fresh
    | here _ found | above _ absent => simp_all
  | above fresh absent _ ih =>
    simp only [reduceCtorEq, false_and, or_false] at ih ⊢
    rw [cons_append]
    refine ⟨fun found => ?_, fun same => .above fresh absent (ih.mpr same)⟩
    cases found with
    | skip seen => exact absurd seen fresh
    | here _ entry => simp_all
    | above _ _ later => exact ih.mp later
  | past fresh absent _ _ upwardsHypothesis laterHypothesis =>
    rw [← laterHypothesis, cons_append]
    refine ⟨fun found => ?_, fun found => .above fresh absent (upwardsHypothesis.mpr (.inr ⟨rfl, found⟩))⟩
    cases found with
    | skip seen => exact absurd seen fresh
    | here _ entry => simp_all
    | above _ _ later => simpa using upwardsHypothesis.mp later

theorem Walked.findUpwards_eq (walked : Walked hierarchies find? [] [name] result after) :
    findUpwards hierarchies find? name = result := by
  refine Option.ext fun answer => ?_
  have ends : ¬ Found hierarchies find? after [] answer := fun found => nomatch found
  rw [findUpwards_eq_some, ← append_nil [name], walked.found_append]
  simp [ends]

section paths

variable {other : List String}

/-- A path upwards from a class. It has the class and its own end, and no class twice. -/
structure IsPath (hierarchies : List ClassHierarchy) (name : String) (path : List String) : Prop where
  starts : path.head? = some name
  upwards : path.IsChain (IsSuper hierarchies)
  simple : path.Nodup

def entryAt? (find? : String → Option String) (path : List String) : Option String := path.getLast?.bind find?

/-- The first of two paths comes before the second. Both begin with one of the choices. -/
inductive Earlier (hierarchies : List ClassHierarchy) : (choices path other : List String) → Prop
  | stops {choices rest : List String} {next : String} : Earlier hierarchies choices [] (next :: rest)
  | parts {choices more rest : List String} {left right : String}
    (order : choices.idxOf left < choices.idxOf right) :
    Earlier hierarchies choices (left :: more) (right :: rest)
  | follows {choices path other : List String} {name : String}
    (later : Earlier hierarchies (superNames hierarchies name) path other) :
    Earlier hierarchies choices (name :: path) (name :: other)

/-- A path that begins with one of the choices, comes to no class in `barred`, and to no class twice. -/
inductive Route (hierarchies : List ClassHierarchy) : (barred choices path : List String) → Prop
  | stop {barred choices : List String} {name : String} (offered : name ∈ choices) (free : name ∉ barred) :
    Route hierarchies barred choices [name]
  | up {barred choices path : List String} {name : String} (offered : name ∈ choices) (free : name ∉ barred)
    (further : Route hierarchies (name :: barred) (superNames hierarchies name) path) :
    Route hierarchies barred choices (name :: path)

theorem Earlier.asymm (earlier : Earlier hierarchies choices path other) :
    ¬ Earlier hierarchies choices other path := by
  induction earlier with
  | stops => exact fun later => nomatch later
  | parts order =>
    intro later
    cases later with
    | parts reversed | follows => omega
  | follows _ ih =>
    intro later
    cases later with
    | parts order => omega
    | follows later => exact ih later

variable {barred : List String}

theorem Route.mono (route : Route hierarchies barred choices path)
    (subset : fewer ⊆ barred) : Route hierarchies fewer choices path := by
  induction route generalizing fewer with
  | stop offered free => exact .stop offered fun listed => free (subset listed)
  | up offered free _ ih =>
    exact .up offered (fun listed => free (subset listed)) (ih (cons_subset_cons _ subset))

theorem Route.widen {more : List String} (route : Route hierarchies barred choices path)
    (subset : choices ⊆ more) : Route hierarchies barred more path := by
  cases route with
  | stop offered free => exact .stop (subset offered) free
  | up offered free further => exact .up (subset offered) free further

/-- A route is a path from one of the choices that passes nothing barred. -/
theorem route_iff : Route hierarchies barred choices path ↔
    ∃ name ∈ choices, IsPath hierarchies name path ∧ ∀ passed ∈ path, passed ∉ barred := by
  constructor
  · intro route
    induction route with
    | @stop barred choices name offered free =>
      exact ⟨name, offered, ⟨rfl, isChain_singleton _, nodup_singleton _⟩, by simpa using free⟩
    | @up barred choices path name offered free _ ih =>
      obtain ⟨next, isSuper, ⟨starts, upwards, simple⟩, avoids⟩ := ih
      simp only [mem_cons, not_or] at avoids
      refine ⟨name, offered, ⟨rfl, ?_, ?_⟩, ?_⟩
      · refine isChain_cons.mpr ⟨fun above listed => ?_, upwards⟩
        obtain rfl : next = above := by simpa [starts] using listed
        exact isSuper
      · exact nodup_cons.mpr ⟨fun listed => (avoids name listed).1 rfl, simple⟩
      · exact forall_mem_cons.mpr ⟨free, fun passed listed => (avoids passed listed).2⟩
  · rintro ⟨name, offered, ⟨starts, upwards, simple⟩, avoids⟩
    induction path generalizing barred choices name with
    | nil => cases starts
    | cons first path ih =>
      obtain rfl : first = name := by simpa using starts
      obtain ⟨free, avoids⟩ := forall_mem_cons.mp avoids
      obtain ⟨once, simple⟩ := nodup_cons.mp simple
      cases path with
      | nil => exact .stop offered free
      | cons next path =>
        obtain ⟨isSuper, upwards⟩ := isChain_cons_cons.mp upwards
        refine .up offered free (ih next isSuper (fun passed listed seen => ?_) rfl upwards simple)
        rcases mem_cons.mp seen with rfl | seen
        · exact once listed
        · exact avoids passed listed seen

theorem isPath_iff_route : IsPath hierarchies name path ↔ Route hierarchies [] [name] path := by
  simp [route_iff]

theorem entryAt?_cons (route : Route hierarchies barred choices path) :
    entryAt? find? (name :: path) = entryAt? find? path := by
  cases route <;> rfl

theorem Earlier.cons (earlier : Earlier hierarchies choices path other)
    (different : path.head? ≠ some name) (otherDifferent : other.head? ≠ some name) :
    Earlier hierarchies (name :: choices) path other := by
  cases earlier with
  | stops => exact .stops
  | @parts _ _ _ left right order =>
    have first : name ≠ left := fun same => different (by rw [same]; rfl)
    have second : name ≠ right := fun same => otherDifferent (by rw [same]; rfl)
    refine .parts ?_
    rw [idxOf_cons_ne _ first, idxOf_cons_ne _ second]
    omega
  | follows later => exact .follows later

end paths

section records

variable {barred : List String}

/-- What the record of a search says: no visited class has an entry, and the supers of a visited class are
visited too, but for the classes on the trail. -/
structure Settled (hierarchies : List ClassHierarchy) (find? : String → Option String)
    (trail visited : List String) : Prop where
  barren : ∀ name ∈ visited, find? name = none
  closed : ∀ name ∈ visited, name ∉ trail → superNames hierarchies name ⊆ visited

theorem Settled.enter (settled : Settled hierarchies find? trail visited) (absent : find? name = none) :
    Settled hierarchies find? (name :: trail) (name :: visited) where
  barren := forall_mem_cons.mpr ⟨absent, settled.barren⟩
  closed other listed off := by
    rw [mem_cons, not_or] at off
    rcases mem_cons.mp listed with same | seen
    · exact absurd same off.1
    · exact subset_cons_of_subset _ (settled.closed other seen off.2)

theorem Settled.leave (settled : Settled hierarchies find? (name :: trail) visited)
    (above : superNames hierarchies name ⊆ visited) : Settled hierarchies find? trail visited where
  barren := settled.barren
  closed other listed off := by
    by_cases same : other = name
    · exact same ▸ above
    · exact settled.closed other listed (by simp [same, off])

theorem Walked.settled (walked : Walked hierarchies find? visited names none after)
    (settled : Settled hierarchies find? trail visited) : Settled hierarchies find? trail after ∧ names ⊆ after := by
  generalize unanswered : (none : Option String) = result at walked
  induction walked generalizing trail with
  | done => exact ⟨settled, nil_subset _⟩
  | skip seen later ih =>
    obtain ⟨kept, all⟩ := ih settled unanswered
    exact ⟨kept, cons_subset.mpr ⟨later.visited_subset seen, all⟩⟩
  | here | above => cases unanswered
  | past fresh absent upwards later upwardsHypothesis laterHypothesis =>
    obtain ⟨entered, above⟩ := upwardsHypothesis (settled.enter absent) rfl
    obtain ⟨kept, all⟩ := laterHypothesis (entered.leave above) unanswered
    have seen := later.visited_subset (upwards.visited_subset mem_cons_self)
    exact ⟨kept, cons_subset.mpr ⟨seen, all⟩⟩

/-- A route that avoids the trail and begins with a visited class stays among the visited classes, and so does
not end in an entry. -/
theorem Settled.entryAt?_eq_none (settled : Settled hierarchies find? trail visited)
    (route : Route hierarchies barred choices path) (avoids : trail ⊆ barred)
    (seen : ∀ first, path.head? = some first → first ∈ visited) : entryAt? find? path = none := by
  induction route with
  | stop offered free => exact settled.barren _ (seen _ rfl)
  | @up barred _ path name offered free further ih =>
    rw [entryAt?_cons further]
    refine ih (subset_cons_of_subset _ avoids) fun first begins => ?_
    have isSuper : first ∈ superNames hierarchies name := by
      cases further <;> cases begins <;> assumption
    exact settled.closed name (seen name rfl) (fun listed => free (avoids listed)) isSuper

/-- A route that avoids what was visited and ends in an entry, and that comes before all others that avoid the
trail and end in one. -/
structure First (hierarchies : List ClassHierarchy) (find? : String → Option String)
    (trail visited names : List String) (answer : String) (path : List String) : Prop where
  route : Route hierarchies visited names path
  entry : entryAt? find? path = some answer
  least : ∀ other, Route hierarchies trail names other → (entryAt? find? other).isSome → other ≠ path →
    Earlier hierarchies names path other

theorem First.here (fresh : name ∉ visited) (entry : find? name = some answer) :
    First hierarchies find? trail visited (name :: names) answer [name] where
  route := .stop mem_cons_self fresh
  entry := entry
  least other route ends different := by
    cases route with
    | @stop _ _ other =>
      have apart : name ≠ other := fun same => different (by rw [same])
      exact .parts (by simp [idxOf_cons_ne _ apart])
    | @up _ _ path other _ _ further =>
      by_cases same : name = other
      · subst same
        obtain ⟨next, rest, rfl⟩ : ∃ next rest, path = next :: rest := by
          cases further <;> exact ⟨_, _, rfl⟩
        exact .follows .stops
      · exact .parts (by simp [idxOf_cons_ne _ same])

/-- The first route from the supers of a class is the first one from the class, if that has no entry. -/
theorem First.above (first : First hierarchies find? (name :: trail) (name :: visited)
      (superNames hierarchies name) answer path) (fresh : name ∉ visited) (absent : find? name = none) :
    First hierarchies find? trail visited (name :: names) answer (name :: path) where
  route := .up mem_cons_self fresh first.route
  entry := by rw [entryAt?_cons first.route, first.entry]
  least other route ends different := by
    cases route with
    | @stop _ _ other =>
      have apart : name ≠ other := by
        rintro rfl
        simp [entryAt?, absent] at ends
      exact .parts (by simp [idxOf_cons_ne _ apart])
    | @up _ _ rest other _ _ further =>
      by_cases same : name = other
      · subst same
        rw [entryAt?_cons further] at ends
        exact .follows (first.least rest further ends fun same => different (by rw [same]))
      · exact .parts (by simp [idxOf_cons_ne _ same])

/-- The first route stays the first one if a class is put in front that was visited: no route from there leads
to an entry. -/
theorem First.past (first : First hierarchies find? trail visited names answer path)
    (settled : Settled hierarchies find? trail visited) (seen : name ∈ visited) :
    First hierarchies find? trail visited (name :: names) answer path where
  route := first.route.widen (subset_cons_self _ _)
  entry := first.entry
  least other route ends different := by
    have elsewhere : other.head? ≠ some name := by
      intro begins
      have fruitless := settled.entryAt?_eq_none route (List.Subset.refl _) fun head is => by
        rw [begins] at is
        exact Option.some.inj is ▸ seen
      simp [fruitless] at ends
    have offered : Route hierarchies trail names other := by
      cases route with
      | stop offered free => exact .stop (mem_of_ne_of_mem (by simpa using elsewhere) offered) free
      | up offered free further => exact .up (mem_of_ne_of_mem (by simpa using elsewhere) offered) free further
    have fresh : path.head? ≠ some name := by
      have route := first.route
      cases route with
      | stop _ free | up _ free => exact fun begins => free (Option.some.inj begins ▸ seen)
    exact (first.least other offered ends different).cons fresh elsewhere

theorem First.mono (first : First hierarchies find? trail visited names answer path)
    (subset : fewer ⊆ visited) : First hierarchies find? trail fewer names answer path :=
  ⟨first.route.mono subset, first.entry, first.least⟩

theorem Walked.exists_first (walked : Walked hierarchies find? visited names (some answer) after)
    (settled : Settled hierarchies find? trail visited) :
    ∃ path, First hierarchies find? trail visited names answer path := by
  generalize answered : some answer = result at walked
  induction walked generalizing trail with
  | done => cases answered
  | skip seen _ ih =>
    obtain ⟨path, first⟩ := ih settled answered
    exact ⟨path, first.past settled seen⟩
  | here fresh entry =>
    cases answered
    exact ⟨_, .here fresh entry⟩
  | above fresh absent _ ih =>
    obtain ⟨path, first⟩ := ih (settled.enter absent) answered
    exact ⟨_, first.above fresh absent⟩
  | past fresh absent upwards _ _ laterHypothesis =>
    obtain ⟨entered, above⟩ := upwards.settled (settled.enter absent)
    have left := entered.leave above
    obtain ⟨seen, kept⟩ := cons_subset.mp upwards.visited_subset
    obtain ⟨path, first⟩ := laterHypothesis left answered
    exact ⟨path, (first.past left seen).mono kept⟩

theorem settled_nil : Settled hierarchies find? [] [] := ⟨by simp, by simp⟩

theorem Walked.barren (walked : Walked hierarchies find? [] [name] none after) {above : String}
    (reaches : Reaches hierarchies name above) : find? above = none := by
  obtain ⟨settled, all⟩ := walked.settled settled_nil
  refine settled.barren above ?_
  induction reaches with
  | refl => exact all mem_cons_self
  | tail _ step seen => exact settled.closed _ seen not_mem_nil step

theorem Walked.entryAt?_eq_none (walked : Walked hierarchies find? [] [name] none after)
    (isPath : IsPath hierarchies name path) : entryAt? find? path = none := by
  obtain ⟨settled, all⟩ := walked.settled settled_nil
  refine settled.entryAt?_eq_none (isPath_iff_route.mp isPath) (nil_subset _) fun first begins => ?_
  rw [isPath.starts] at begins
  exact Option.some.inj begins ▸ all mem_cons_self

theorem Walked.exists_isPath (walked : Walked hierarchies find? [] [name] (some answer) after) :
    ∃ path, IsPath hierarchies name path ∧ entryAt? find? path = some answer ∧
      ∀ other, IsPath hierarchies name other → (entryAt? find? other).isSome → other ≠ path →
        Earlier hierarchies [name] path other := by
  obtain ⟨path, first⟩ := walked.exists_first settled_nil
  refine ⟨path, isPath_iff_route.mpr first.route, first.entry, fun other isPath => ?_⟩
  exact first.least other (isPath_iff_route.mp isPath)

theorem Walked.eq_some_of_isPath (walked : Walked hierarchies find? [] [name] result after)
    (isPath : IsPath hierarchies name path) (entry : entryAt? find? path = some answer)
    (least : ∀ other, IsPath hierarchies name other → (entryAt? find? other).isSome → other ≠ path →
      Earlier hierarchies [name] path other) : result = some answer := by
  cases result with
  | none => simp [walked.entryAt?_eq_none isPath] at entry
  | some found =>
    obtain ⟨foundPath, foundIsPath, foundEntry, foundLeast⟩ := walked.exists_isPath
    by_cases same : foundPath = path
    · rw [← foundEntry, same, entry]
    · have before := least foundPath foundIsPath (by simp [foundEntry]) same
      have behind := foundLeast path isPath (by simp [entry]) (Ne.symm same)
      exact absurd behind before.asymm

end records

/-- A member is looked up on its owner and above it, and the first entry for it is found, whatever the
hierarchies are like.

The walk upwards, with its one record of visited classes, has exactly one outcome, which is the answer. There is
an answer just if some class that can be reached from the owner has an entry, and the answer is the entry of such
a class. An entry of the owner itself wins. In any case the entry stands at the end of the first path that ends in
one, where supers come in their order, the super class before the interfaces. -/
theorem inheritingRenamer_finds_first (table : MappingTable) (hierarchies : List ClassHierarchy) (kind : MemberKind)
    (owner name descriptor : String) :
    ∃ result, (table.inheritingRenamer hierarchies).memberName? kind owner name descriptor = .ok result ∧
      (∀ other, (∃ after, Walked hierarchies (table.member? kind · name descriptor) [] [owner] other after) ↔
        other = result) ∧
      (result.isSome ↔ ∃ above, Reaches hierarchies owner above ∧
        (table.member? kind above name descriptor).isSome) ∧
      (∀ answer, result = some answer → ∃ above, Reaches hierarchies owner above ∧
        table.member? kind above name descriptor = some answer) ∧
      (∀ answer, table.member? kind owner name descriptor = some answer → result = some answer) ∧
      ∀ answer, result = some answer ↔ ∃ path, IsPath hierarchies owner path ∧
        entryAt? (table.member? kind · name descriptor) path = some answer ∧
        ∀ other, IsPath hierarchies owner other → (entryAt? (table.member? kind · name descriptor) other).isSome →
          other ≠ path → Earlier hierarchies [owner] path other := by
  obtain ⟨result, after, walked⟩ := exists_walked hierarchies (table.member? kind · name descriptor) [] [owner]
  have found : findUpwards hierarchies (table.member? kind · name descriptor) owner = result := walked.findUpwards_eq
  have sound : ∀ answer, result = some answer → ∃ above, Reaches hierarchies owner above ∧
      table.member? kind above name descriptor = some answer := by
    rintro answer rfl
    obtain ⟨first, listed, above, reaches, entry⟩ := (findUpwards_eq_some.mp found).exists_entry
    obtain rfl := List.mem_singleton.mp listed
    exact ⟨above, reaches, entry⟩
  refine ⟨result, ?_, fun other => ⟨?_, ?_⟩, ⟨?_, ?_⟩, sound, ?_, fun answer => ⟨?_, ?_⟩⟩
  · cases kind <;> exact congrArg Except.ok found
  · rintro ⟨_, again⟩
    exact again.findUpwards_eq.symm.trans found
  · rintro rfl
    exact ⟨after, walked⟩
  · intro answered
    obtain ⟨answer, is⟩ := Option.isSome_iff_exists.mp answered
    obtain ⟨above, reaches, entry⟩ := sound answer is
    exact ⟨above, reaches, by rw [entry, Option.isSome_some]⟩
  · rintro ⟨above, reaches, entry⟩
    refine Option.isSome_iff_ne_none.mpr ?_
    rintro rfl
    simp [walked.barren reaches] at entry
  · intro answer entry
    have here : Walked hierarchies (table.member? kind · name descriptor) [] [owner] (some answer) [owner] :=
      .here List.not_mem_nil entry
    exact found.symm.trans here.findUpwards_eq
  · rintro rfl
    exact walked.exists_isPath
  · rintro ⟨path, isPath, entry, least⟩
    exact walked.eq_some_of_isPath isPath entry least

end ClassHierarchy

end JarRemap
