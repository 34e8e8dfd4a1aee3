import Mathlib.Logic.Relation
import VoteCounting.Data.Loop

namespace VoteCounting.Sweep

/-! Depth-first recursion over a mutable state.

A call enters the state, may mark one item, and makes further calls.  Arguments
of calls are references that only a lookup turns into items, so several calls may
name the same item.  The recursion is bounded by fuel; `run_total` says how much
is enough.
-/

universe u v w

variable {σ : Type u} {α : Type v} {ι : Type w}

/-- `enter` gives the state right after a call has been entered and the calls it
then makes, in order. -/
def run (enter : σ → α → σ × List α) : Nat → σ → α → Option σ
  | 0, _, _ => none
  | fuel + 1, state, call => (enter state call).2.foldlM (run enter fuel) (enter state call).1

theorem run_succ (enter : σ → α → σ × List α) (fuel : Nat) (state : σ) (call : α) :
    run enter (fuel + 1) state call =
      (enter state call).2.foldlM (run enter fuel) (enter state call).1 := rfl

/-- Fuel beyond the measure is enough when every call that recurses lowers it. -/
theorem run_total {enter : σ → α → σ × List α} (measure : σ → Nat)
    (weak : ∀ state call, measure (enter state call).1 ≤ measure state)
    (strict : ∀ state call, (enter state call).2 ≠ [] →
      measure (enter state call).1 < measure state)
    {fuel : Nat} {state : σ} (call : α) (enough : measure state < fuel) :
    ∃ after, run enter fuel state call = some after ∧ measure after ≤ measure state := by
  induction fuel generalizing state call with
  | zero => omega
  | succ fuel ih =>
      rw [run_succ]
      by_cases leaf : (enter state call).2 = []
      · exact ⟨(enter state call).1, by rw [leaf]; rfl, weak state call⟩
      · have lower := strict state call leaf
        have small : measure (enter state call).1 < fuel := by omega
        obtain ⟨after, done, below⟩ := Loop.total
          (fun later => measure later ≤ measure (enter state call).1) (Nat.le_refl _)
          fun later still next _ => by
            obtain ⟨after, done, below⟩ := ih next (Nat.lt_of_le_of_lt still small)
            exact ⟨after, done, Nat.le_trans below still⟩
        exact ⟨after, done, by omega⟩

/-- A preorder that every entered call respects relates the two ends of a run. -/
theorem run_rel {enter : σ → α → σ × List α} {R : σ → σ → Prop}
    (refl : ∀ state, R state state) (trans : ∀ {a b c}, R a b → R b c → R a c)
    (entered : ∀ state call, R state (enter state call).1)
    {fuel : Nat} {state after : σ} {call : α} (done : run enter fuel state call = some after) :
    R state after := by
  induction fuel generalizing state after call with
  | zero => cases done
  | succ fuel ih =>
      rw [run_succ] at done
      exact trans (entered state call) (Loop.keeps (R (enter state call).1) (refl _)
        (fun sofar ran => trans sofar (ih ran)) done)

/-- An invariant that only holds for calls of one kind, where such calls make no others. -/
theorem run_within {enter : σ → α → σ × List α} {I : σ → Prop} {K : α → Prop}
    (entered : ∀ {state call}, I state → K call →
      I (enter state call).1 ∧ ∀ next ∈ (enter state call).2, K next)
    {fuel : Nat} {state after : σ} {call : α} (holds : I state) (kind : K call)
    (done : run enter fuel state call = some after) : I after := by
  induction fuel generalizing state after call with
  | zero => cases done
  | succ fuel ih =>
      rw [run_succ] at done
      obtain ⟨first, kinds⟩ := entered holds kind
      refine Loop.invariant (fun _ state => I state) first ?_ done
      exact fun whole sofar ran => ih sofar (kinds _ (by simp [whole])) ran

/-- A call marks its target if that is still ready and then calls the references
the target holds; otherwise it stops at once. -/
structure Marking (enter : σ → α → σ × List α) (Inv : σ → Prop) (target : α → Option ι)
    (ready : σ → ι → Prop) (next : ι → List α) : Prop where
  inv : ∀ {state} call, Inv state → Inv (enter state call).1
  stop : ∀ {state call}, Inv state → (∀ item, target call = some item → ¬ ready state item) →
    (enter state call).2 = [] ∧ ∀ item, ready (enter state call).1 item ↔ ready state item
  calls : ∀ {state call item}, Inv state → target call = some item → ready state item →
    (enter state call).2 = next item
  marks : ∀ {state call item}, Inv state → target call = some item → ready state item →
    ∀ other, ready (enter state call).1 other ↔ ready state other ∧ other ≠ item

/-- One item calls another that is ready. -/
def Calls (target : α → Option ι) (next : ι → List α) (ready : ι → Prop) (item other : ι) : Prop :=
  (∃ call ∈ next item, target call = some other) ∧ ready other

/-- The items reached from a ready one through ready items only. -/
def Reaches (target : α → Option ι) (next : ι → List α) (ready : ι → Prop) (item other : ι) :
    Prop :=
  ready item ∧ Relation.ReflTransGen (Calls target next ready) item other

section Marking

variable {enter : σ → α → σ × List α} {Inv : σ → Prop} {target : α → Option ι}
  {ready : σ → ι → Prop} {next : ι → List α} {state middle after : σ} {item other : ι}

theorem Reaches.head {first : ι → Prop} (isReady : first item)
    (held : ∃ call ∈ next item, target call = some other)
    {last : ι} (rest : Reaches target next first other last) : Reaches target next first item last :=
  ⟨isReady, .head ⟨held, rest.1⟩ rest.2⟩

theorem Reaches.mono {first second : ι → Prop} (weaker : ∀ item, first item → second item)
    (reached : Reaches target next first item other) : Reaches target next second item other :=
  ⟨weaker _ reached.1,
    Relation.ReflTransGen.mono (fun _ _ step => ⟨step.1, weaker _ step.2⟩) _ _ reached.2⟩

theorem Reaches.last_ready {first : ι → Prop} (reached : Reaches target next first item other) :
    first other := by
  obtain ⟨isReady, path⟩ := reached
  cases path with
  | refl => exact isReady
  | tail _ step => exact step.2

/-- The effect of a sequence of finished calls. -/
structure Effect (Inv : σ → Prop) (target : α → Option ι) (ready : σ → ι → Prop)
    (next : ι → List α) (before : σ) (calls : List α) (after : σ) : Prop where
  inv : Inv after
  antitone : ∀ item, ready after item → ready before item
  settled : ∀ call ∈ calls, ∀ item, target call = some item → ¬ ready after item
  closed : ∀ item, ready before item → ¬ ready after item →
    ∀ call ∈ next item, ∀ other, target call = some other → ¬ ready after other
  sound : ∀ item, ready before item → ¬ ready after item →
    ∃ call ∈ calls, ∃ start, target call = some start ∧
      Reaches target next (ready before) start item

theorem Effect.nil (inv : Inv state) : Effect Inv target ready next state [] state :=
  ⟨inv, fun _ isReady => isReady, by simp, fun _ isReady gone => absurd isReady gone,
    fun _ isReady gone => absurd isReady gone⟩

theorem Effect.append {first second : List α}
    (left : Effect Inv target ready next state first middle)
    (right : Effect Inv target ready next middle second after) :
    Effect Inv target ready next state (first ++ second) after where
  inv := right.inv
  antitone item isReady := left.antitone item (right.antitone item isReady)
  settled call member item found := by
    rcases List.mem_append.mp member with earlier | later
    · exact fun isReady => left.settled call earlier item found (right.antitone item isReady)
    · exact right.settled call later item found
  closed item isReady gone call held other found := by
    by_cases still : ready middle item
    · exact right.closed item still gone call held other found
    · exact fun otherReady =>
        left.closed item isReady still call held other found (right.antitone other otherReady)
  sound item isReady gone := by
    by_cases still : ready middle item
    · obtain ⟨call, member, start, found, reached⟩ := right.sound item still gone
      exact ⟨call, by simp [member], start, found, reached.mono left.antitone⟩
    · obtain ⟨call, member, start, found, reached⟩ := left.sound item isReady still
      exact ⟨call, by simp [member], start, found, reached⟩

/-- The invariant of a half-finished recursion is carried by `Effect`: whatever
has been marked so far has all its calls settled when its own call returns. -/
theorem run_effect (marking : Marking enter Inv target ready next) {fuel : Nat} {call : α}
    (inv : Inv state) (done : run enter fuel state call = some after) :
    Effect Inv target ready next state [call] after := by
  induction fuel generalizing state after call with
  | zero => cases done
  | succ fuel ih =>
      rw [run_succ] at done
      by_cases hit : ∃ item, target call = some item ∧ ready state item
      · obtain ⟨item, found, isReady⟩ := hit
        rw [marking.calls inv found isReady] at done
        have rest := Loop.invariant (Effect Inv target ready next (enter state call).1)
          (.nil (marking.inv call inv)) (fun _ sofar ran => sofar.append (ih sofar.inv ran)) done
        have marks := marking.marks inv found isReady
        have unmarked : ¬ ready after item := fun still =>
          ((marks item).mp (rest.antitone item still)).2 rfl
        refine ⟨rest.inv, fun other still => ((marks other).mp (rest.antitone other still)).1,
          ?_, ?_, ?_⟩
        · intro same member other sameFound
          obtain rfl := List.mem_singleton.mp member
          rw [found] at sameFound
          cases sameFound
          exact unmarked
        · intro other wasReady gone held member final finalFound
          by_cases same : other = item
          · subst same
            exact rest.settled held member final finalFound
          · exact rest.closed other ((marks other).mpr ⟨wasReady, same⟩) gone held member
              final finalFound
        · intro other wasReady gone
          refine ⟨call, by simp, item, found, ?_⟩
          by_cases same : other = item
          · subst same
            exact ⟨isReady, .refl⟩
          · obtain ⟨held, member, start, startFound, reached⟩ :=
              rest.sound other ((marks other).mpr ⟨wasReady, same⟩) gone
            exact .head isReady ⟨held, member, startFound⟩
              (reached.mono fun item still => ((marks item).mp still).1)
      · have idle := marking.stop inv fun item found isReady => hit ⟨item, found, isReady⟩
        rw [idle.1] at done
        simp only [List.foldlM_nil, Option.pure_def, Option.some.injEq] at done
        subst done
        refine ⟨marking.inv call inv, fun item => (idle.2 item).mp, ?_,
          fun item isReady gone => absurd ((idle.2 item).mpr isReady) gone,
          fun item isReady gone => absurd ((idle.2 item).mpr isReady) gone⟩
        intro same member item found isReady
        obtain rfl := List.mem_singleton.mp member
        exact hit ⟨item, found, (idle.2 item).mp isReady⟩

/-- A run marks exactly what its call reaches through ready items, although the
recursion stops early wherever an item has been marked before. -/
theorem run_marks_iff (marking : Marking enter Inv target ready next) {fuel : Nat} {call : α}
    (inv : Inv state) (done : run enter fuel state call = some after)
    (isReady : ready state item) :
    ¬ ready after item ↔
      ∃ start, target call = some start ∧ Reaches target next (ready state) start item := by
  have effect := run_effect marking inv done
  constructor
  · intro gone
    obtain ⟨same, member, start, found, reached⟩ := effect.sound item isReady gone
    obtain rfl := List.mem_singleton.mp member
    exact ⟨start, found, reached⟩
  · intro ⟨start, found, startReady, path⟩
    have marked : ready state start ∧ ¬ ready after start :=
      ⟨startReady, effect.settled call (by simp) start found⟩
    clear isReady
    induction path with
    | refl => exact marked.2
    | tail path step ih =>
        obtain ⟨⟨held, member, heldFound⟩, _⟩ := step
        have before : ready state _ := Reaches.last_ready ⟨startReady, path⟩
        exact effect.closed _ before ih held member _ heldFound

end Marking

end VoteCounting.Sweep
