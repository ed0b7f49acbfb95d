import DnslessHomelab.ClientStream

/-!
# The grammar of a client's lifecycle events

An attempt to connect is announced, and then fails or leads to one connection
with one loss. Both the connection loop and the reconnect loop report a loss, so
the grammar holds exactly as long as the connection loop has no read error.
-/
namespace DnslessHomelab.ConnectionLifecycle
open Protocol ClientStream

inductive Phase where
  | connecting | connected | connectionFailed | connectionLost
  deriving DecidableEq, Repr

/-- Lifecycle events, without their data. -/
def phase? : ClientEvent → Option Phase
  | .connecting _ => some .connecting
  | .connected _ => some .connected
  | .connectionFailed _ _ => some .connectionFailed
  | .connectionLost _ => some .connectionLost
  | .ipUpdateReceived .. | .hostsFileUpdated .. | .hostsFileError .. | .heartbeatReceived
  | .parseError .. => none

def phases (events : List ClientEvent) : List Phase := events.filterMap phase?

/-- Words of `(Connecting (ConnectionFailed | Connected ConnectionLost))*`. -/
inductive Word : List Phase → Prop
  | nil : Word []
  | failed (w : List Phase) : Word w → Word (.connecting :: .connectionFailed :: w)
  | session (w : List Phase) :
      Word w → Word (.connecting :: .connected :: .connectionLost :: w)

def PrefixOfWord (l : List Phase) : Prop := ∃ w, Word w ∧ l <+: w

theorem PrefixOfWord.of_prefix {k l : List Phase} (h : PrefixOfWord l) (hk : k <+: l) :
    PrefixOfWord k := by
  obtain ⟨w, hw, hl⟩ := h
  exact ⟨w, hw, hk.trans hl⟩

theorem prefixOfWord_nil : PrefixOfWord [] := ⟨[], .nil, List.prefix_refl _⟩

theorem prefixOfWord_failed {l : List Phase} :
    PrefixOfWord (.connecting :: .connectionFailed :: l) ↔ PrefixOfWord l := by
  constructor
  · intro h
    obtain ⟨w, hw, hl⟩ := h
    cases hw with
    | nil => simp at hl
    | failed w hw =>
        simp only [List.cons_prefix_cons, true_and] at hl
        exact ⟨w, hw, hl⟩
    | session w hw => simp [List.cons_prefix_cons] at hl
  · intro h
    obtain ⟨w, hw, hl⟩ := h
    refine ⟨_, hw.failed, ?_⟩
    simpa [List.cons_prefix_cons] using hl

/-- After a connection the one loss must follow. -/
theorem prefixOfWord_session {p : Phase} {l : List Phase} :
    PrefixOfWord (.connecting :: .connected :: p :: l) ↔
      p = .connectionLost ∧ PrefixOfWord l := by
  constructor
  · intro h
    obtain ⟨w, hw, hl⟩ := h
    cases hw with
    | nil => simp at hl
    | failed w hw => simp [List.cons_prefix_cons] at hl
    | session w hw =>
        simp only [List.cons_prefix_cons, true_and] at hl
        exact ⟨hl.1, w, hw, hl.2⟩
  · intro h
    obtain ⟨rfl, w, hw, hl⟩ := h
    refine ⟨_, hw.session, ?_⟩
    simpa [List.cons_prefix_cons] using hl

theorem not_prefixOfWord_lost (l : List Phase) : ¬ PrefixOfWord (.connectionLost :: l) := by
  intro h
  obtain ⟨w, hw, hl⟩ := h
  cases hw <;> simp [List.cons_prefix_cons] at hl

section Run
variable {σ : Type*} (json : SerdeJson) (update : σ → Text → Text → σ × Except Text Unit)

@[simp] theorem phases_append (es fs : List ClientEvent) :
    phases (es ++ fs) = phases es ++ phases fs :=
  List.filterMap_append ..

theorem phases_handleLine (s : σ) (raw : Text) :
    phases (handleLine json update s raw).2 = [] := by
  unfold handleLine
  split
  · rfl
  · rename_i msg _
    cases msg with
    | heartbeat => rfl
    | ipUpdate u =>
        unfold handleMessage
        cases hr : (update s u.hostname u.ip).2 <;> simp [hr, phases, phase?]

/-- The connection loop is silent, unless it meets a read error. -/
theorem phases_handleStream (addr : Text) (s : σ) (items : List Item) :
    phases (handleStream json update addr s items).2 = [] ∧
        (∀ item ∈ items, ∃ raw, item = .ok raw) ∨
      phases (handleStream json update addr s items).2 = [.connectionLost] ∧
        ¬ ∀ item ∈ items, ∃ raw, item = .ok raw := by
  induction items generalizing s with
  | nil => exact .inl ⟨rfl, by simp⟩
  | cons item items ih =>
      cases item with
      | error e => exact .inr ⟨rfl, by simp⟩
      | ok raw =>
          have := ih (handleLine json update s raw).1
          simpa [handleStream, phases_handleLine] using this

theorem prefixOfWord_runWithEvents (cfg : ClientConfig) (s : σ) (attempts : List Attempt) :
    PrefixOfWord (phases (runWithEvents json update cfg s attempts).2) ↔
      ∀ bytes fin, .established bytes fin ∈ attempts →
        fin = .endOfStream ∧ (Utf8.decode bytes).isSome := by
  induction attempts generalizing s with
  | nil => simp [runWithEvents, phases, prefixOfWord_nil]
  | cons attempt attempts ih =>
      simp only [runWithEvents, phases_append, List.mem_cons]
      cases attempt with
      | refused e =>
          have hphases : phases (runAttempt json update cfg s (.refused e)).2 =
              [.connecting, .connectionFailed] := rfl
          rw [hphases, List.cons_append, List.cons_append, List.nil_append,
            prefixOfWord_failed, ih]
          simp
      | established bytes fin =>
          have hsplit : phases (runAttempt json update cfg s (.established bytes fin)).2 =
              .connecting :: .connected ::
                (phases (handleStream json update cfg.serverAddr s (readLines bytes fin)).2 ++
                  [.connectionLost]) := by
            simp [runAttempt, phases, phase?]
          rw [hsplit]
          cases phases_handleStream json update cfg.serverAddr s (readLines bytes fin) with
          | inl h =>
              rw [h.1]
              simp only [List.nil_append, List.cons_append, prefixOfWord_session, true_and, ih]
              have hclean := readLines_ok_iff.mp h.2
              constructor
              · rintro hrest b f (⟨⟨⟩⟩ | hb)
                · exact hclean
                · exact hrest b f hb
              · exact fun hall b f hb => hall b f (.inr hb)
          | inr h =>
              -- a second loss follows the first one
              rw [h.1]
              simp only [List.cons_append, List.nil_append, prefixOfWord_session, true_and]
              constructor
              · exact fun hlost => absurd hlost (not_prefixOfWord_lost _)
              · exact fun hall => absurd (readLines_ok_iff.mpr (hall bytes fin (.inl rfl))) h.2

/-- Every stretch of a run's events obeys the grammar exactly when every connection
of the run ends at end of stream after octets that are all UTF-8. -/
theorem lifecycle_iff (cfg : ClientConfig) (s : σ) (attempts : List Attempt) :
    (∀ emitted, emitted <+: (runWithEvents json update cfg s attempts).2 →
        PrefixOfWord (phases emitted)) ↔
      ∀ bytes fin, .established bytes fin ∈ attempts →
        fin = .endOfStream ∧ (Utf8.decode bytes).isSome := by
  rw [← prefixOfWord_runWithEvents json update cfg s attempts]
  constructor
  · exact fun h => h _ (List.prefix_refl _)
  · exact fun h emitted hemitted => h.of_prefix (hemitted.filterMap _)

end Run

/-- A connection reset right after it was established is reported lost twice. -/
theorem readError_lost_twice :
    ∃ emitted, emitted <+: (runWithEvents ⟨fun _ => .error [], fun _ => .error []⟩
        (fun (s : Unit) _ _ => (s, .ok ())) ⟨"127.0.0.1".toList, 5353⟩ ()
        [.established [] .readError]).2 ∧
      ¬ PrefixOfWord (phases emitted) := by
  refine ⟨_, List.prefix_refl _, fun h => ?_⟩
  have hlost : PrefixOfWord [.connectionLost] :=
    (prefixOfWord_session (p := .connectionLost) (l := [.connectionLost])).mp h |>.2
  exact not_prefixOfWord_lost [] hlost

end DnslessHomelab.ConnectionLifecycle
