import Mathlib.Tactic

namespace VoteCounting

universe u

/-- What is before a process.  A fork is a copy: neither side sees what the other does later. -/
inductive Process (κ : Type u) where
  | fork (child parent : Process κ)
  | wait (rest : Process κ)
  | exec (program : κ)
  | running (program : κ)
  | ended
deriving Inhabited

namespace Process

variable {κ : Type u}

inductive Event (κ : Type u) where
  | launched (program : κ)
  | finished (program : κ)
deriving DecidableEq

/-- A process and its children, ended ones too until they are waited for. -/
inductive Family (κ : Type u) where
  | node (self : Process κ) (children : List (Family κ))

open Event Family

/-- The steps of one process among all that may run.  The last list are the orphans it leaves. -/
inductive Step : Family κ → Option (Event κ) → Family κ → List (Family κ) → Prop
  | fork {child parent : Process κ} {children : List (Family κ)} :
      Step (node (.fork child parent) children) none (node parent (children ++ [node child []])) []
  | wait {rest : Process κ} (before after : List (Family κ)) :
      Step (node (.wait rest) (before ++ node .ended [] :: after)) none (node rest (before ++ after)) []
  | childless {rest : Process κ} : Step (node (.wait rest) []) none (node .ended []) []
  | exec {program : κ} {children : List (Family κ)} :
      Step (node (.exec program) children) (some (launched program))
        (node (.running program) children) []
  | finish {program : κ} {children : List (Family κ)} :
      Step (node (.running program) children) (some (finished program)) (node .ended []) children
  | within {self : Process κ} {orphans : List (Family κ)} {child next : Family κ}
      {label : Option (Event κ)}
      (before after : List (Family κ)) : Step child label next orphans →
      Step (node self (before ++ child :: after)) label (node self (before ++ next :: after)) orphans

/-- The labels of the steps from a forest of processes, in any order of steps. -/
inductive Runs (start : List (Family κ)) : List (Option (Event κ)) → List (Family κ) → Prop
  | nil : Runs start [] start
  | snoc {labels : List (Option (Event κ))} {before after orphans : List (Family κ)}
      {family next : Family κ}
      {label : Option (Event κ)} : Runs start labels (before ++ family :: after) →
      Step family label next orphans →
        Runs start (labels ++ [label]) (before ++ next :: after ++ orphans)

/-- No process can go on. -/
def Final (forest : List (Family κ)) : Prop :=
  ∀ family ∈ forest, ∀ label next orphans, ¬ Step family label next orphans

/-- A process that waits for each child before it goes on, with its events and the number of
its steps. -/
inductive Sequential : Process κ → List (Event κ) → Nat → Prop
  | fork {child rest : Process κ} {first last : List (Event κ)} {n m : Nat} :
      Sequential child first n → Sequential rest last m →
      Sequential (.fork child (.wait rest)) (first ++ last) (n + m + 2)
  | exec (program : κ) : Sequential (.exec program) [launched program, finished program] 2
  | running (program : κ) : Sequential (.running program) [finished program] 1
  | ended : Sequential .ended [] 0

/-- A chain of processes that wait for each other, with the events to come and the number of
steps. -/
inductive Pending : Family κ → List (Event κ) → Nat → Prop
  | alone {self : Process κ} {events : List (Event κ)} {n : Nat} :
      Sequential self events n → Pending (node self []) events n
  | waiting {rest : Process κ} {child : Family κ} {first last : List (Event κ)} {n m : Nat} :
      Pending child first n → Sequential rest last m →
        Pending (node (.wait rest) [child]) (first ++ last) (n + m + 1)

variable {process : Process κ} {family next : Family κ} {events : List (Event κ)} {n : Nat}
  {label : Option (Event κ)} {labels : List (Option (Event κ))} {orphans forest : List (Family κ)}

theorem not_append_cons {α : Type*} {before after : List α} {item : α} :
    [] ≠ before ++ item :: after := by
  simp

theorem append_cons_eq_singleton {α : Type*} {before after : List α} {item other : α}
    (whole : [other] = before ++ item :: after) : before = [] ∧ item = other ∧ after = [] := by
  cases before with
  | nil =>
      obtain ⟨rfl, rfl⟩ := List.cons.inj whole
      exact ⟨rfl, rfl, rfl⟩
  | cons first rest => exact absurd (List.cons.inj whole).2 not_append_cons

/-- A step of a chain leaves a chain, and does what comes first. -/
theorem Pending.step (pending : Pending family events n) (step : Step family label next orphans) :
    orphans = [] ∧ ∃ later m, events = label.toList ++ later ∧ n = m + 1 ∧ Pending next later m := by
  induction pending generalizing label next orphans with
  | @alone self _ _ sequential =>
      generalize whole : node self [] = start at step
      cases step with
      | fork =>
          cases whole
          cases sequential with
          | fork child rest => exact ⟨rfl, _, _, rfl, by omega, .waiting (.alone child) rest⟩
      | wait => exact absurd (node.inj whole).2 not_append_cons
      | childless =>
          cases whole
          cases sequential
      | exec =>
          cases whole
          cases sequential
          exact ⟨rfl, _, _, rfl, rfl, .alone (.running _)⟩
      | finish =>
          cases whole
          cases sequential
          exact ⟨rfl, _, _, rfl, rfl, .alone .ended⟩
      | within => exact absurd (node.inj whole).2 not_append_cons
  | @waiting rest child first last n m pending sequential ih =>
      generalize whole : node (.wait rest) [child] = start at step
      cases step with
      | fork => cases whole
      | wait =>
          obtain ⟨same, children⟩ := node.inj whole
          obtain rfl := wait.inj same
          obtain ⟨rfl, rfl, rfl⟩ := append_cons_eq_singleton children
          cases pending with
          | alone gone =>
              cases gone
              exact ⟨rfl, _, _, rfl, by omega, .alone sequential⟩
      | childless => exact absurd (node.inj whole).2 (by simp)
      | exec => cases whole
      | finish => cases whole
      | within _ _ step =>
          obtain ⟨rfl, children⟩ := node.inj whole
          obtain ⟨rfl, rfl, rfl⟩ := append_cons_eq_singleton children
          obtain ⟨noOrphans, later, k, rfl, rfl, kept⟩ := ih step
          exact ⟨noOrphans, _, _, List.append_assoc .., by omega, .waiting kept sequential⟩

/-- A chain goes on until all its processes have ended. -/
theorem Pending.progress (pending : Pending family events n) :
    (family = node .ended [] ∧ events = []) ∨ ∃ label next, Step family label next [] := by
  induction pending with
  | alone sequential =>
      cases sequential with
      | fork => exact .inr ⟨_, _, .fork⟩
      | exec => exact .inr ⟨_, _, .exec⟩
      | running => exact .inr ⟨_, _, .finish⟩
      | ended => exact .inl ⟨rfl, rfl⟩
  | @waiting rest child _ _ _ _ _ _ ih =>
      rcases ih with ⟨rfl, _⟩ | ⟨label, next, step⟩
      · exact .inr ⟨_, _, .wait [] []⟩
      · exact .inr ⟨_, _, .within [] [] step⟩

/-- What is left to do after any run. -/
theorem Runs.pending (runs : Runs [family] labels forest) (pending : Pending family events n) :
    ∃ current later m, forest = [current] ∧ events = labels.filterMap id ++ later ∧
      n = labels.length + m ∧
      Pending current later m := by
  induction runs with
  | nil => exact ⟨family, events, n, rfl, rfl, by simp, pending⟩
  | snoc _ step ih =>
      obtain ⟨current, later, m, whole, rfl, rfl, kept⟩ := ih
      obtain ⟨rfl, rfl, rfl⟩ := append_cons_eq_singleton whole.symm
      obtain ⟨rfl, last, k, rfl, rfl, left⟩ := kept.step step
      refine ⟨_, last, k, by simp, ?_, ?_, left⟩
      · rw [List.filterMap_append, List.append_assoc]
        congr 1
      · rw [List.length_append, List.length_singleton]
        omega

/-- Whatever steps a sequential process and its children take, their events come in order, and
all of them come. -/
theorem Sequential.runs (sequential : Sequential process events n)
    (runs : Runs [node process []] labels forest) :
    labels.filterMap id <+: events ∧ labels.length ≤ n ∧
      (Final forest → labels.filterMap id = events) := by
  obtain ⟨current, later, m, rfl, rfl, rfl, pending⟩ := runs.pending (.alone sequential)
  refine ⟨List.prefix_append _ _, Nat.le_add_right _ _, fun final => ?_⟩
  rcases pending.progress with ⟨_, rfl⟩ | ⟨label, next, step⟩
  · rw [List.append_nil]
  · exact absurd step (final current List.mem_cons_self label next [])

/-- Each program is finished before the next one is launched. -/
def oneByOne (programs : List κ) : List (Event κ) :=
  programs.flatMap fun program => [launched program, finished program]

def Event.launch? : Event κ → Option κ
  | launched program => some program
  | finished _ => none

def Event.finish? : Event κ → Option κ
  | launched _ => none
  | finished program => some program

section OneByOne

variable {α : Type*} {programs : List κ} {program : κ} {past future : List (Event κ)}

theorem launches_oneByOne (programs : List κ) :
    (oneByOne programs).filterMap Event.launch? = programs := by
  induction programs with
  | nil => rfl
  | cons program rest ih =>
      rw [oneByOne, List.flatMap_cons, List.filterMap_append, ← oneByOne, ih]
      rfl

theorem finishes_oneByOne (programs : List κ) :
    (oneByOne programs).filterMap Event.finish? = programs := by
  induction programs with
  | nil => rfl
  | cons program rest ih =>
      rw [oneByOne, List.flatMap_cons, List.filterMap_append, ← oneByOne, ih]
      rfl

theorem oneByOne_launched (whole : oneByOne programs = past ++ launched program :: future) :
    ∃ before after, programs = before ++ program :: after ∧ past = oneByOne before := by
  induction programs generalizing past with
  | nil => exact absurd whole not_append_cons
  | cons other rest ih =>
      have parts : launched other :: finished other :: oneByOne rest = past ++ launched program ::
        future := whole
      rcases past with _ | ⟨first, _ | ⟨second, past⟩⟩
      · obtain ⟨same, _⟩ := List.cons.inj parts
        obtain rfl := Event.launched.inj same
        exact ⟨[], rest, rfl, rfl⟩
      · have apart := (List.cons.inj (List.cons.inj parts).2).1
        cases apart
      · simp only [List.cons_append, List.cons.injEq] at parts
        obtain ⟨rfl, rfl, parts⟩ := parts
        obtain ⟨before, after, rfl, rfl⟩ := ih parts
        exact ⟨other :: before, after, rfl, rfl⟩

theorem finished_mem_oneByOne : finished program ∈ oneByOne programs ↔ program ∈ programs := by
  simp [oneByOne]

/-- A process that forks its children one after the other and waits for each. -/
theorem Sequential.calls {children : List α} {call : α → Process κ} {before : α → List (Event κ)}
    (each : ∀ child ∈ children, ∃ n, Sequential (call child) (before child) n) {last : Process κ}
    {after : List (Event κ)} {m : Nat} (ends : Sequential last after m) :
    ∃ n, Sequential (children.foldr (fun child rest => .fork (call child) (.wait rest)) last)
      (children.flatMap before ++ after) n := by
  induction children with
  | nil => exact ⟨m, ends⟩
  | cons child rest ih =>
      obtain ⟨first, own⟩ := each child List.mem_cons_self
      obtain ⟨others, remaining⟩ := ih fun other held => each other (List.mem_cons_of_mem _ held)
      rw [List.flatMap_cons, List.append_assoc]
      exact ⟨_, .fork own remaining⟩

end OneByOne

end Process

end VoteCounting
