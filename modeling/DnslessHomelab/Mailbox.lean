import Mathlib.Data.List.Basic

/-!
# A channel and the state its reader folds

A sender appends events to a channel, the reader takes them from the front one at a time,
each at a time of its own, and folds them into a state. However sends and receives are
interleaved, the state is the fold of the first part of what was sent, and the rest is
pending.
-/
namespace DnslessHomelab.Mailbox
variable {E T V : Type*} {apply : V → T → E → V} {initial view : V} {sent pending new : List E}

/-- What a step of a sender has appended to its list of events. -/
def appended (before after : List E) : List E := after.drop before.length

theorem append_appended {before after : List E} (h : before <+: after) :
    before ++ appended before after = after := by
  obtain ⟨new, rfl⟩ := h
  rw [appended, List.drop_left]

/-- The state after events, each with the time at which it was applied. -/
def folded (apply : V → T → E → V) (initial : V) (stamped : List (T × E)) : V :=
  stamped.foldl (fun v e => apply v e.1 e.2) initial

theorem folded_concat (stamped : List (T × E)) (now : T) (ev : E) :
    folded apply initial (stamped ++ [(now, ev)]) =
      apply (folded apply initial stamped) now ev := by
  rw [folded, List.foldl_append, List.foldl_cons, List.foldl_nil, folded]

/-- The reader has folded these events, under some times. -/
def Folds (apply : V → T → E → V) (initial : V) (events : List E) (view : V) : Prop :=
  ∃ stamped : List (T × E), stamped.map Prod.snd = events ∧ folded apply initial stamped = view

/-- The reader has folded everything that was sent and is no longer pending. -/
def Delivers (apply : V → T → E → V) (initial : V) (sent pending : List E) (view : V) : Prop :=
  ∃ events, events ++ pending = sent ∧ Folds apply initial events view

theorem delivers_start (apply : V → T → E → V) (initial : V) (sent : List E) :
    Delivers apply initial sent sent initial := ⟨[], rfl, [], rfl, rfl⟩

theorem Delivers.send (h : Delivers apply initial sent pending view) (new : List E) :
    Delivers apply initial (sent ++ new) (pending ++ new) view := by
  obtain ⟨events, rfl, hfolds⟩ := h
  exact ⟨events, (List.append_assoc ..).symm, hfolds⟩

theorem Delivers.receive {ev : E} (h : Delivers apply initial sent (ev :: pending) view) (now : T) :
    Delivers apply initial sent pending (apply view now ev) := by
  obtain ⟨events, rfl, stamped, rfl, rfl⟩ := h
  refine ⟨stamped.map Prod.snd ++ [ev], List.append_cons .. |>.symm, stamped ++ [(now, ev)], ?_, ?_⟩
  · rw [List.map_append, List.map_singleton]
  · exact folded_concat stamped now ev

/-- An empty channel: the reader has seen everything. -/
theorem Delivers.all (h : Delivers apply initial sent [] view) : Folds apply initial sent view := by
  obtain ⟨events, rfl, hfolds⟩ := h
  rw [List.append_nil]
  exact hfolds

end DnslessHomelab.Mailbox
