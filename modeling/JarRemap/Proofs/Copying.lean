import JarRemap.Proofs.ClassFileFormat

/-!
# Operations that change nothing

An operation returns a value on a pool if it can only give that value and leave the pool alone. A pass
through an attribute carries its bytes if what it writes is alike to what it takes; what a step took is remembered
until it is written. A pass rewrites if it reads a value, works on it and writes the result.
-/
namespace JarRemap

open PoolM Reader AttributeM

variable {α β : Type} {act : PoolM α} {value : α} {reader : Reader α}

namespace PoolM

/-- If the operation succeeds on the pool, it gives the value and leaves the pool as it is. -/
def Returns (pool : ConstantPool) (act : PoolM α) (value : α) : Prop :=
  ∀ result after, act.Gives pool result after → result = value ∧ after = pool

namespace Returns

variable {pool : ConstantPool} {result : β} {next : α → PoolM β} {values : List α}

theorem pure (value : α) : Returns pool (Pure.pure value) value := by
  intro given after gives
  obtain ⟨rfl, rfl⟩ := gives_pure.mp gives
  exact ⟨rfl, rfl⟩

theorem fail (cause : Cause) (value : α) : Returns pool (fail cause) value :=
  fun _ _ gives => absurd gives not_gives_fail

theorem lift_bind {outcome : Outcome α} (step : ∀ value, outcome = .ok value → Returns pool (next value) result) :
    Returns pool (liftM outcome >>= next) result := by
  intro given after gives
  obtain ⟨value, _, start, finish⟩ := gives_bind.mp gives
  obtain ⟨reached, rfl⟩ := gives_lift.mp start
  exact step value reached given after finish

theorem get_bind {next : ConstantPool → PoolM β} (step : Returns pool (next pool) result) :
    Returns pool (get >>= next) result := by
  intro given after gives
  obtain ⟨value, _, start, finish⟩ := gives_bind.mp gives
  obtain ⟨rfl, rfl⟩ := gives_get.mp start
  exact step given after finish

theorem bind {first : PoolM α} {middle : α} (start : Returns pool first middle)
    (step : Returns pool (next middle) result) : Returns pool (first >>= next) result := by
  intro given after gives
  obtain ⟨value, between, first, finish⟩ := gives_bind.mp gives
  obtain ⟨rfl, rfl⟩ := start value between first
  exact step given after finish

theorem within (context : Context) (returns : Returns pool act value) : Returns pool (within context act) value :=
  fun _ _ gives => returns _ _ (gives_within.mp gives)

theorem mapM {act : α → PoolM α} (returns : ∀ value ∈ values, Returns pool (act value) value) :
    Returns pool (values.mapM act) values := by
  induction values with
  | nil => exact .pure []
  | cons value values ih =>
    obtain ⟨first, others⟩ := List.forall_mem_cons.mp returns
    rw [List.mapM_cons]
    exact .bind first (.bind (ih others) (.pure _))

theorem forM {act : α → PoolM Unit} (returns : ∀ value ∈ values, Returns pool (act value) ()) :
    Returns pool (values.forM act) () := by
  induction values with
  | nil => exact .pure ()
  | cons value values ih =>
    obtain ⟨first, others⟩ := List.forall_mem_cons.mp returns
    exact .bind first (ih others)

end Returns

/-- Begun on a pool that `stays` tells of, the operation ends on one and gives a good value. -/
def Keeps (stays : ConstantPool → Prop) (good : α → Prop) (act : PoolM α) : Prop :=
  ∀ pool value after, stays pool → act.Gives pool value after → stays after ∧ good value

theorem Returns.keeps {change : α → β} (returns : Returns pool act value) :
    Keeps (· = pool) (fun result => change value = change result) act := by
  rintro _ result after rfl given
  obtain ⟨rfl, rfl⟩ := returns result after given
  exact ⟨rfl, rfl⟩

end PoolM

theorem Reader.Inverts.injective {write : α → Outcome Bytes} (inverts : reader.Inverts write)
    {first second : Bytes} (read : reader first = .ok (value, [])) (again : reader second = .ok (value, [])) :
    first = second := by
  obtain ⟨bytes, written, rfl⟩ := (inverts _ _ _).mp read
  obtain ⟨others, produced, rfl⟩ := (inverts _ _ _).mp again
  rw [Outcome.unique written produced]

namespace AttributeM

/-- Equal bytes are alike, and bytes are if their parts are. -/
structure Blends (alike : Bytes → Bytes → Prop) : Prop where
  refl : ∀ bytes, alike bytes bytes
  append : ∀ {first second third fourth}, alike first third → alike second fourth →
    alike (first ++ second) (third ++ fourth)

/-- Begun on a pool that `stays` tells of, the pass ends on one, and what it writes is alike to what was taken
before it and what it takes itself. -/
def Carries (stays : ConstantPool → Prop) (alike : Bytes → Bytes → Prop) (taken : Bytes)
    (pass : AttributeM Bytes) : Prop :=
  ∀ pool input written rest after, stays pool → Gives (pass input) pool (written, rest) after →
    stays after ∧ ∃ read, input = read ++ rest ∧ alike (taken ++ read) written

namespace Carries

variable {stays : ConstantPool → Prop} {alike : Bytes → Bytes → Prop} {taken : Bytes} {pass : AttributeM Bytes}
  {next : α → AttributeM Bytes}

theorem done {written : Bytes} (same : alike taken written) : Carries stays alike taken (pure written) := by
  intro pool input result rest after stay given
  obtain ⟨rfl, rfl, rfl⟩ := gives_pure.mp given
  exact ⟨stay, [], rfl, by rwa [List.append_nil]⟩

theorem fail (cause : Cause) : Carries stays alike taken (fail cause) :=
  fun _ _ _ _ _ _ given => absurd given not_gives_fail

theorem take {write : α → Bytes} (inverts : reader.Inverts fun value => .ok (write value))
    (step : ∀ value, Carries stays alike (taken ++ write value) (next value)) :
    Carries stays alike taken (take reader >>= next) := by
  intro pool input written rest after stay given
  obtain ⟨value, left, _, first, finish⟩ := gives_bind.mp given
  obtain ⟨read, rfl⟩ := gives_take.mp first
  obtain ⟨_, ⟨⟩, rfl⟩ := (inverts _ _ _).mp read
  obtain ⟨stayed, more, rfl, same⟩ := step value _ _ _ _ _ stay finish
  exact ⟨stayed, write value ++ more, by simp, by simpa using same⟩

theorem u16 {next : UInt16 → AttributeM Bytes}
    (step : ∀ value, Carries stays alike (taken ++ u16Bytes value) (next value)) :
    Carries stays alike taken (AttributeM.take Reader.u16 >>= next) := take u16_inverts step

theorem u8 {next : UInt8 → AttributeM Bytes}
    (step : ∀ value, Carries stays alike (taken ++ u8Bytes value) (next value)) :
    Carries stays alike taken (AttributeM.take Reader.u8 >>= next) := take u8_inverts step

theorem lift {good : α → Prop} (keeps : act.Keeps stays good)
    (step : ∀ value, good value → Carries stays alike taken (next value)) :
    Carries stays alike taken (liftM act >>= next) := by
  intro pool input written rest after stay given
  obtain ⟨value, left, between, first, finish⟩ := gives_bind.mp given
  obtain ⟨start, rfl⟩ := gives_lift.mp first
  obtain ⟨stayed, holds⟩ := keeps _ _ _ stay start
  exact step value holds _ _ _ _ _ stayed finish

theorem outcome {result : Outcome α} (step : ∀ value, result = .ok value → Carries stays alike taken (next value)) :
    Carries stays alike taken (liftM result >>= next) := by
  intro pool input written rest after stay given
  obtain ⟨value, left, between, first, finish⟩ := gives_bind.mp given
  obtain ⟨reached, rfl, rfl⟩ := gives_liftOutcome.mp first
  exact step value reached _ _ _ _ _ stay finish

theorem bind {next : Bytes → AttributeM Bytes} (first : Carries stays alike [] pass)
    (step : ∀ read written, alike read written → Carries stays alike (taken ++ read) (next written)) :
    Carries stays alike taken (pass >>= next) := by
  intro pool input written rest after stay given
  obtain ⟨result, left, between, start, finish⟩ := gives_bind.mp given
  obtain ⟨stayed, read, rfl, same⟩ := first _ _ _ _ _ stay start
  obtain ⟨stayed, more, rfl, alike⟩ := step read result same _ _ _ _ _ stayed finish
  exact ⟨stayed, read ++ more, by simp, by simpa using alike⟩

/-- Repetitions write one after the other what is alike. The results before them are held latest first. -/
theorem timesFrom {next : List Bytes → AttributeM Bytes} (blends : Blends alike) (carries : Carries stays alike [] pass)
    (count : Nat) (before : List Bytes) (step : ∀ read written, alike read written.flatten →
      Carries stays alike (taken ++ read) (next (before.reverse ++ written))) :
    Carries stays alike taken (timesFrom before pass count >>= next) := by
  induction count generalizing before taken with
  | zero => simpa [timesFrom] using step [] [] (blends.refl _)
  | succ count ih =>
    rw [timesFrom, bind_assoc]
    refine carries.bind fun read written same => ih (written :: before) fun more further alike => ?_
    simpa using step (read ++ more) (written :: further) (blends.append same alike)

theorem list (blends : Blends alike) (carries : Carries stays alike [] pass) : Carries stays alike [] (list pass) :=
  .u16 fun count => carries.timesFrom blends count.toNat [] fun _ _ same => .done (blends.append (blends.refl _) same)

end Carries

/-- The pass reads a value, works on it, and writes what can be read as the result. -/
def Rewrites (pass : AttributeM Bytes) (reader : Reader α) (act : α → PoolM α) : Prop :=
  ∀ pool input written rest after, Gives (pass input) pool (written, rest) after →
    ∃ value result, reader input = .ok (value, rest) ∧ (act value).Gives pool result after ∧
      ∀ more, reader (written ++ more) = .ok (result, more)

namespace Rewrites

variable {pass : AttributeM Bytes} {reader : Reader α} {act : α → PoolM α}

/-- A repeated pass works on one value after another. The results before them are held latest first. -/
theorem timesFrom (rewrites : pass.Rewrites reader act) {count : Nat} {done written : List Bytes} {input rest : Bytes}
    (given : PoolM.Gives (timesFrom done pass count input) pool (written, rest) after) :
    ∃ values results added, written = done.reverse ++ added ∧ (values.mapM act).Gives pool results after ∧
      (∀ seen, Reader.timesFrom seen reader count input = .ok (seen.reverse ++ values, rest)) ∧
      ∀ seen more, Reader.timesFrom seen reader count (added.flatten ++ more) =
        .ok (seen.reverse ++ results, more) := by
  induction count generalizing done input pool with
  | zero =>
    obtain ⟨rfl, rfl, rfl⟩ := gives_pure.mp given
    exact ⟨[], [], [], by simp, by simp, fun seen => by simp [Reader.timesFrom],
      fun seen more => by simp [Reader.timesFrom]⟩
  | succ count ih =>
    obtain ⟨next, left, between, first, others⟩ := gives_bind.mp given
    obtain ⟨value, result, read, run, reread⟩ := rewrites _ _ _ _ _ first
    obtain ⟨values, results, added, rfl, runs, reads, rereads⟩ := ih others
    refine ⟨value :: values, result :: results, next :: added, by simp, ?_, fun seen => ?_, fun seen more => ?_⟩
    · simp only [List.mapM_cons, PoolM.gives_bind, PoolM.gives_pure]
      exact ⟨result, between, run, results, after, runs, rfl, rfl⟩
    · rw [Reader.timesFrom, Reader.bind_eq_ok]
      exact ⟨value, left, read, by simpa using reads (value :: seen)⟩
    · rw [Reader.timesFrom, Reader.bind_eq_ok]
      exact ⟨result, added.flatten ++ more, by simpa using reread (added.flatten ++ more),
        by simpa using rereads (result :: seen) more⟩

theorem list (rewrites : pass.Rewrites reader act) : (list pass).Rewrites (Reader.list reader) (List.mapM act) := by
  intro pool input written rest after given
  simp only [AttributeM.list, gives_bind, gives_take, u16_eq_ok, gives_pure] at given
  obtain ⟨count, _, _, ⟨rfl, rfl⟩, parts, _, _, repeated, rfl, rfl, rfl⟩ := given
  obtain ⟨values, results, _, rfl, runs, reads, rereads⟩ := rewrites.timesFrom repeated
  refine ⟨values, results, ?_, runs, fun more => ?_⟩
  · simp only [Reader.list, Reader.times, bind_eq_ok, u16_eq_ok]
    exact ⟨count, _, rfl, by simpa using reads []⟩
  · simp only [Reader.list, Reader.times, bind_eq_ok, u16_eq_ok]
    exact ⟨count, parts.flatten ++ more, by simp, by simpa using rereads [] more⟩

end Rewrites

end AttributeM

end JarRemap
