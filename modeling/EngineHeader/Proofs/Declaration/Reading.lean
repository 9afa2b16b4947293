import EngineHeader.Declaration.Parser
import EngineHeader.Proofs.Declaration.Grammar

/-!
# What a reading yields

A reading of words either fails or gives a value and the words that are left.
`Yields r a rest` says that it gives `a` and leaves `rest`.  The proof inside the
result, that fewer words are left, is of no interest here.

Readings are put together by doing one on what the other has left.  So there are
two lemmas for that, one to build such a reading (`Yields.bind`) and one to take it
apart (`Yields.of_bind`).  For each of the small readings one lemma says what it
yields.
-/

namespace EngineHeader.Declaration.Parser

open Token (Kind Word)

variable {α β : Type} {ws us rest : List Word} {w : Word} {kind : Kind} {expected : Expected}

/-- The reading gives `a` and leaves `rest`. -/
def Yields (r : Reading α ws) (a : α) (rest : List Word) : Prop :=
  ∃ h : rest.length < ws.length, r = .ok ⟨a, rest, h⟩

theorem yields_pure {a : α} (h : rest.length < ws.length) :
    Yields (pure ⟨a, rest, h⟩ : Reading α ws) a rest := ⟨h, rfl⟩

theorem yields_pure_iff {a b : α} {h : us.length < ws.length} :
    Yields (pure ⟨a, us, h⟩ : Reading α ws) b rest ↔ a = b ∧ us = rest := by
  constructor
  · rintro ⟨_, he⟩
    cases he
    exact ⟨rfl, rfl⟩
  · rintro ⟨rfl, rfl⟩
    exact yields_pure h

theorem not_yields_error {s : Stuck} {a : α} : ¬ Yields (.error s : Reading α ws) a rest := by
  rintro ⟨_, he⟩
  cases he

/-- What a reading yields is determined. -/
theorem Yields.unique {r : Reading α ws} {a b : α} (ha : Yields r a us) (hb : Yields r b rest) :
    a = b ∧ us = rest := by
  obtain ⟨_, ha⟩ := ha
  obtain ⟨_, hb⟩ := hb
  rw [ha] at hb
  cases hb
  exact ⟨rfl, rfl⟩

theorem Yields.shorter {r : Reading α ws} {a : α} (h : Yields r a rest) :
    rest.length < ws.length := h.1

/-! ## One reading behind the other -/

theorem Yields.bind {r : Reading α us} {f : Taken α us → Reading β ws} {a : α} {b : β}
    {mid : List Word} (hr : Yields r a mid)
    (hf : ∀ h : mid.length < us.length, Yields (f ⟨a, mid, h⟩) b rest) :
    Yields (r >>= f) b rest := by
  obtain ⟨h, rfl⟩ := hr
  exact hf h

theorem Yields.of_bind {r : Reading α us} {f : Taken α us → Reading β ws} {b : β}
    (h : Yields (r >>= f) b rest) :
    ∃ a mid, Yields r a mid ∧ ∃ h : mid.length < us.length, Yields (f ⟨a, mid, h⟩) b rest := by
  cases r with
  | error s => exact absurd h not_yields_error
  | ok t => exact ⟨t.value, t.rest, ⟨t.shorter, rfl⟩, t.shorter, h⟩

/-! ## Single words -/

theorem yields_expect (h : w.kind = kind) : Yields (expect kind expected (w :: ws)) w ws := by
  rw [expect, if_pos h]
  exact ⟨_, rfl⟩

theorem yields_expect_iff :
    Yields (expect kind expected ws) w rest ↔ ws = w :: rest ∧ w.kind = kind := by
  constructor
  · intro h
    cases ws with
    | nil => exact absurd h not_yields_error
    | cons v vs =>
      rw [expect] at h
      split at h
      · next hk =>
        obtain ⟨rfl, rfl⟩ := yields_pure_iff.mp h
        exact ⟨rfl, hk⟩
      · exact absurd h not_yields_error
  · rintro ⟨rfl, h⟩
    exact yields_expect h

theorem yields_name (h : w.kind = .identifier) : Yields (name expected (w :: ws)) w.text ws :=
  (yields_expect h).bind fun _ => yields_pure _

theorem yields_name_iff {n : String} :
    Yields (name expected ws) n rest ↔ ∃ w, ws = w :: rest ∧ w.kind = .identifier ∧ w.text = n := by
  constructor
  · intro h
    obtain ⟨w, mid, hw, _, h⟩ := h.of_bind
    obtain ⟨rfl, hk⟩ := yields_expect_iff.mp hw
    obtain ⟨rfl, rfl⟩ := yields_pure_iff.mp h
    exact ⟨w, rfl, hk, rfl⟩
  · rintro ⟨w, rfl, hk, rfl⟩
    exact yields_name hk

theorem startsWith_cons : startsWith kind (w :: ws) = true ↔ w.kind = kind := by
  simp [startsWith]

theorem startsWith_eq_false {other : Kind} (h : w.kind = other) (hk : other ≠ kind) :
    startsWith kind (w :: ws) = false := by
  simp [startsWith, h, hk]

theorem accept?_cons (h : w.kind = kind) :
    accept? kind (w :: ws) = some ⟨w, ws, Nat.lt_succ_self _⟩ := by
  rw [accept?, if_pos h]

theorem accept?_eq_none (h : startsWith kind ws = false) : accept? kind ws = none := by
  cases ws with
  | nil => rfl
  | cons w ws =>
    rw [accept?, if_neg]
    simpa [startsWith] using h

/-- What was accepted is the first word. -/
theorem accept?_eq_some {h : rest.length < ws.length} (heq : accept? kind ws = some ⟨w, rest, h⟩) :
    ws = w :: rest ∧ w.kind = kind := by
  cases ws with
  | nil => cases heq
  | cons v vs =>
    rw [accept?] at heq
    split at heq
    · next hk =>
      cases heq
      exact ⟨rfl, hk⟩
    · cases heq

/-! ## Comments between declarations -/

/-- A header without its comments has none of those between declarations. -/
theorem filterMap_comments (tokens : List Token) :
    (comments tokens).filterMap withoutComments? = [] := by
  simp [comments, withoutComments?]

end EngineHeader.Declaration.Parser
