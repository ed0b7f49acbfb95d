import Mathlib.Data.Option.Basic
import Mathlib.Data.List.Basic

/-!
# Runs of a partial step function

A system is a step function that refuses the actions it cannot take. A run is a
list of actions none of which is refused. An invariant may rely on a guard that
is not part of the system; `Guarded` says that the guard held before every step
of one run. What an outsider sees of a run is collected step by step by `observe`.
-/
namespace DnslessHomelab.Runs
variable {S A : Type*}

def run (step : S → A → Option S) (s : S) : List A → Option S
  | [] => some s
  | a :: as => (step s a).bind fun s' => run step s' as

/-- The guard holds in the state before each step. -/
def Guarded (step : S → A → Option S) (ok : S → A → Prop) (s : S) : List A → Prop
  | [] => True
  | a :: as => ok s a ∧ ∀ s' ∈ step s a, Guarded step ok s' as

def decidableGuarded (step : S → A → Option S) (ok : S → A → Prop)
    [∀ s a, Decidable (ok s a)] : ∀ s as, Decidable (Guarded step ok s as)
  | _, [] => isTrue trivial
  | s, a :: as =>
      have := fun s' => decidableGuarded step ok s' as
      inferInstanceAs (Decidable (ok s a ∧ ∀ s' ∈ step s a, Guarded step ok s' as))

instance (step : S → A → Option S) (ok : S → A → Prop) [∀ s a, Decidable (ok s a)] (s : S)
    (as : List A) : Decidable (Guarded step ok s as) :=
  decidableGuarded step ok s as

/-- What the steps of a run show, in order. -/
def observe {B : Type*} (step : S → A → Option S) (shown : S → A → S → List B) (s : S) :
    List A → List B
  | [] => []
  | a :: as =>
      match step s a with
      | none => []
      | some s' => shown s a s' ++ observe step shown s' as

variable {step : S → A → Option S} {ok : S → A → Prop} {s t : S} {a : A} {as bs : List A}

/-- A guard that only concerns the action. -/
theorem guarded_of_forall {ok : A → Prop} (h : ∀ a ∈ as, ok a) :
    Guarded step (fun _ a => ok a) s as := by
  induction as generalizing s with
  | nil => trivial
  | cons a as ih =>
      constructor
      · exact h a (List.mem_cons_self ..)
      · exact fun s' _ => ih fun b hb => h b (List.mem_cons_of_mem _ hb)

theorem run_cons : run step s (a :: as) = (step s a).bind fun s' => run step s' as := rfl

theorem run_cons_iff : run step s (a :: as) = some t ↔
    ∃ m, step s a = some m ∧ run step m as = some t := by
  rw [run_cons, Option.bind_eq_some_iff]

theorem run_append : run step s (as ++ bs) = (run step s as).bind fun m => run step m bs := by
  induction as generalizing s with
  | nil => rfl
  | cons a as ih =>
      rw [List.cons_append, run_cons, run_cons, Option.bind_assoc]
      exact congrArg _ (funext fun m => ih)

/-- A fact every step keeps holds at the end of every run. -/
theorem invariant_run {I : S → Prop} (hstep : ∀ s a t, I s → step s a = some t → I t)
    (hs : I s) (h : run step s as = some t) : I t := by
  induction as generalizing s with
  | nil =>
      cases h
      exact hs
  | cons a as ih =>
      obtain ⟨m, hm, h⟩ := run_cons_iff.mp h
      exact ih (hstep s a m hs hm) h

/-- The same for a fact that a step keeps under the guard. -/
theorem invariant_guarded {I : S → Prop}
    (hstep : ∀ s a t, I s → ok s a → step s a = some t → I t)
    (hs : I s) (hok : Guarded step ok s as) (h : run step s as = some t) : I t := by
  induction as generalizing s with
  | nil =>
      cases h
      exact hs
  | cons a as ih =>
      obtain ⟨m, hm, h⟩ := run_cons_iff.mp h
      exact ih (hstep s a m hs hok.1 hm) (hok.2 m hm) h

/-- A relation between the state and what was shown so far, kept by every step. -/
theorem invariant_observe {B : Type*} {shown : S → A → S → List B} {I : S → List B → Prop}
    (hstep : ∀ s a t bs, I s bs → step s a = some t → I t (bs ++ shown s a t)) {b : List B}
    (hs : I s b) (h : run step s as = some t) : I t (b ++ observe step shown s as) := by
  induction as generalizing s b with
  | nil =>
      cases h
      simpa [observe] using hs
  | cons a as ih =>
      obtain ⟨m, hm, h⟩ := run_cons_iff.mp h
      have hnext := ih (hstep s a m b hs hm) h
      rw [List.append_assoc] at hnext
      simpa only [observe, hm] using hnext

theorem observe_cons {B : Type*} {shown : S → A → S → List B} (h : step s a = some t) :
    observe step shown s (a :: as) = shown s a t ++ observe step shown t as := by
  simp only [observe, h]

/-- If each step of one system is matched by steps of another, its runs are matched by
runs of the other; `shown` names the matching steps. -/
theorem simulation_run {T B : Type*} {step' : T → B → Option T} {shown : S → A → S → List B}
    {R : S → T → Prop}
    (hstep : ∀ s a t u, R s u → step s a = some t →
      ∃ v, run step' u (shown s a t) = some v ∧ R t v) {u : T}
    (hs : R s u) (h : run step s as = some t) :
    ∃ v, run step' u (observe step shown s as) = some v ∧ R t v := by
  induction as generalizing s u with
  | nil =>
      cases h
      exact ⟨u, rfl, hs⟩
  | cons a as ih =>
      obtain ⟨m, hm, h⟩ := run_cons_iff.mp h
      obtain ⟨v, hv, hR⟩ := hstep s a m u hs hm
      obtain ⟨x, hx, hR'⟩ := ih hR h
      refine ⟨x, ?_, hR'⟩
      rw [observe_cons hm, run_append, hv]
      exact hx

/-- A run whose steps all make a measure smaller has at most as many steps as the
measure was large. -/
theorem length_le_of_variant {I : S → Prop} {size : S → ℕ}
    (hinvariant : ∀ s a t, I s → step s a = some t → I t)
    (hstep : ∀ s, ∀ a ∈ as, ∀ t, I s → step s a = some t → size t < size s) (hs : I s)
    (h : run step s as = some t) : as.length + size t ≤ size s := by
  induction as generalizing s with
  | nil =>
      cases h
      simp
  | cons a as ih =>
      obtain ⟨m, hm, h⟩ := run_cons_iff.mp h
      have hsmaller := hstep s a (List.mem_cons_self ..) m hs hm
      have hrest := ih (fun s b hb => hstep s b (List.mem_cons_of_mem _ hb))
        (hinvariant s a m hs hm) h
      rw [List.length_cons]
      omega

/-- Where every state that is not `done` has a step that makes a measure smaller, a run of
such steps ends in one that is. -/
theorem exists_run_of_progress {I done : S → Prop} {own : A → Prop} {size : S → ℕ}
    (hprogress : ∀ s, I s → ¬ done s → ∃ a t, own a ∧ step s a = some t ∧ I t ∧ size t < size s)
    (hs : I s) : ∃ as t, (∀ a ∈ as, own a) ∧ run step s as = some t ∧ I t ∧ done t := by
  induction hn : size s using Nat.strongRecOn generalizing s with
  | ind n ih =>
      by_cases hdone : done s
      · exact ⟨[], s, by simp, rfl, hs, hdone⟩
      · obtain ⟨a, m, ha, hm, hI, hsmaller⟩ := hprogress s hs hdone
        obtain ⟨as, t, has, hrun, ht, hend⟩ := ih (size m) (hn ▸ hsmaller) hI rfl
        refine ⟨a :: as, t, ?_, run_cons_iff.mpr ⟨m, hm, hrun⟩, ht, hend⟩
        intro b hb
        cases List.mem_cons.mp hb with
        | inl hba => exact hba ▸ ha
        | inr hb => exact has b hb

end DnslessHomelab.Runs
