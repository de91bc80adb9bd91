import Mathlib

/-! # Talking to a peer that is not trusted

A talk asks and goes on with the reply. The peer is any function of what was exchanged so far, so it may be malicious and may adapt;
a reply can also be silence. What can be replied depends on what was asked.
-/
namespace Pigeon.Library

set_option autoImplicit false

inductive Talk (α : Type) (β : α → Type) (ρ : Type) where
  | done (result : ρ)
  | ask (out : α) (next : β out → Talk α β ρ)

namespace Talk

variable {α : Type} {β : α → Type} {ρ τ : Type}

/-- What was asked, with its reply. -/
abbrev Exchange {α : Type} (β : α → Type) : Type := (out : α) × β out

abbrev Peer {α : Type} (β : α → Type) : Type := List (Exchange β) → (out : α) → β out

/-- What is exchanged from here on, after `past`. -/
def transcript (peer : Peer β) : Talk α β ρ → List (Exchange β) → List (Exchange β)
  | .done _, _ => []
  | .ask out next, past => ⟨out, peer past out⟩ :: transcript peer (next (peer past out)) (past ++ [⟨out, peer past out⟩])

def result (peer : Peer β) : Talk α β ρ → List (Exchange β) → ρ
  | .done result, _ => result
  | .ask out next, past => result peer (next (peer past out)) (past ++ [⟨out, peer past out⟩])

def bind : Talk α β ρ → (ρ → Talk α β τ) → Talk α β τ
  | .done result, rest => rest result
  | .ask out next, rest => .ask out fun reply => (next reply).bind rest

section Bind

variable {peer : Peer β} {talk : Talk α β ρ} {rest : ρ → Talk α β τ} {past : List (Exchange β)}

theorem result_bind : (talk.bind rest).result peer past =
    (rest (talk.result peer past)).result peer (past ++ talk.transcript peer past) := by
  induction talk generalizing past with
  | done result =>
    rw [transcript, List.append_nil]
    rfl
  | ask out next ih => rw [bind, result, ih, transcript, result, List.append_assoc, List.singleton_append]

end Bind

instance : Monad (Talk α β) where
  pure := done
  bind := bind

/-! ## What holds of every course of a talk -/

/-- The exchanges and the result are such, whatever is replied. -/
def Ensures : Talk α β ρ → (List (Exchange β) → ρ → Prop) → Prop
  | .done result, post => post [] result
  | .ask out next, post => ∀ reply, Ensures (next reply) fun exchanges result => post (⟨out, reply⟩ :: exchanges) result

section Ensures

variable {talk : Talk α β ρ} {post : List (Exchange β) → ρ → Prop}

theorem Ensures.holds (h : talk.Ensures post) (peer : Peer β) (past : List (Exchange β)) :
    post (talk.transcript peer past) (talk.result peer past) := by
  induction talk generalizing post past with
  | done result => exact h
  | ask out next ih => exact ih _ (h _) _

theorem Ensures.mono {weaker : List (Exchange β) → ρ → Prop} (h : talk.Ensures post)
    (hWeaker : ∀ exchanges result, post exchanges result → weaker exchanges result) : talk.Ensures weaker := by
  induction talk generalizing post weaker with
  | done result => exact hWeaker _ _ h
  | ask out next ih => exact fun reply => ih reply (h reply) fun exchanges => hWeaker _

theorem Ensures.bind {rest : ρ → Talk α β τ} {post : List (Exchange β) → τ → Prop}
    (h : talk.Ensures fun exchanges result => (rest result).Ensures fun later final => post (exchanges ++ later) final) :
    (talk.bind rest).Ensures post := by
  induction talk generalizing post with
  | done result => exact h
  | ask out next ih => exact fun reply => ih reply (h reply)

end Ensures

/-! ## What is only said behind an opening -/

/-- Nothing that `guarded` names is said before an exchange that `opens` names. -/
def Guarded (opens : Exchange β → Prop) (guarded : α → Prop) : Talk α β ρ → Prop
  | .done _ => True
  | .ask out next => ¬ guarded out ∧ ∀ reply, ¬ opens ⟨out, reply⟩ → Guarded opens guarded (next reply)

/-- The same of what was exchanged. -/
def SaidBehind (opens : Exchange β → Prop) (guarded : α → Prop) (exchanges : List (Exchange β)) : Prop :=
  ∀ before said after, exchanges = before ++ said :: after → guarded said.1 → ∃ exchange ∈ before, opens exchange

theorem Guarded.saidBehind {opens : Exchange β → Prop} {guarded : α → Prop} {talk : Talk α β ρ} (h : talk.Guarded opens guarded)
    (peer : Peer β) (past : List (Exchange β)) : SaidBehind opens guarded (talk.transcript peer past) := by
  intro before said after hSplit hSaid
  induction talk generalizing past before with
  | done result => exact absurd hSplit.symm (List.append_ne_nil_of_right_ne_nil _ (List.cons_ne_nil _ _))
  | ask out next ih =>
    rw [transcript] at hSplit
    cases before with
    | nil =>
      obtain ⟨rfl, -⟩ := List.cons.inj hSplit
      exact absurd hSaid h.1
    | cons first before =>
      obtain ⟨rfl, hRest⟩ := List.cons.inj hSplit
      by_cases hOpens : opens ⟨out, peer past out⟩
      · exact ⟨_, List.mem_cons_self, hOpens⟩
      · obtain ⟨exchange, hExchange, hOpened⟩ := ih _ (h.2 _ hOpens) _ before hRest
        exact ⟨exchange, List.mem_cons_of_mem _ hExchange, hOpened⟩

theorem SaidBehind.append {opens : Exchange β → Prop} {guarded : α → Prop} {exchanges later : List (Exchange β)}
    (h : SaidBehind opens guarded exchanges) (hLater : SaidBehind opens guarded later) :
    SaidBehind opens guarded (exchanges ++ later) := by
  intro before said after hSplit hSaid
  obtain ⟨between, rfl, hAfter⟩ | ⟨between, rfl, hLaterSplit⟩ := List.append_eq_append_iff.mp hSplit
  · obtain ⟨exchange, hExchange, hOpens⟩ := hLater between said after hAfter hSaid
    exact ⟨exchange, List.mem_append_right _ hExchange, hOpens⟩
  · cases between with
    | nil =>
      rw [List.append_nil] at *
      obtain ⟨exchange, hExchange, -⟩ := hLater [] said after hLaterSplit.symm hSaid
      cases hExchange
    | cons first between =>
      obtain ⟨rfl, -⟩ := List.cons.inj hLaterSplit
      exact h before _ between rfl hSaid

/-- What nothing opens is never said. -/
theorem SaidBehind.never {guarded : α → Prop} {exchanges : List (Exchange β)} (h : SaidBehind (fun _ => False) guarded exchanges) :
    ∀ exchange ∈ exchanges, ¬ guarded exchange.1 := by
  intro exchange hExchange hSaid
  obtain ⟨before, after, rfl⟩ := List.append_of_mem hExchange
  obtain ⟨opening, -, hOpening⟩ := h before exchange after rfl hSaid
  exact hOpening

theorem Guarded.bind {opens : Exchange β → Prop} {guarded : α → Prop} {talk : Talk α β ρ} {rest : ρ → Talk α β τ}
    (h : talk.Guarded opens guarded) (hRest : ∀ result, (rest result).Guarded opens guarded) :
    (talk.bind rest).Guarded opens guarded := by
  induction talk with
  | done result => exact hRest result
  | ask out next ih => exact ⟨h.1, fun reply hClosed => ih reply (h.2 reply hClosed)⟩

/-! ## A result that reports an exchange -/

/-- The talk succeeds when an exchange is good, whatever it says after that, and ends without success when none is. -/
inductive Reports (good : Exchange β → Prop) (succeeds : ρ → Prop) : Talk α β ρ → Prop
  | done (result : ρ) (h : ¬ succeeds result) : Reports good succeeds (.done result)
  | ask (out : α) (next : β out → Talk α β ρ) (hGood : ∀ reply, good ⟨out, reply⟩ → ∀ peer past, succeeds ((next reply).result peer past))
      (hOther : ∀ reply, ¬ good ⟨out, reply⟩ → Reports good succeeds (next reply)) : Reports good succeeds (.ask out next)

theorem Reports.succeeds_iff {good : Exchange β → Prop} {succeeds : ρ → Prop} {talk : Talk α β ρ} (h : talk.Reports good succeeds)
    (peer : Peer β) (past : List (Exchange β)) :
    succeeds (talk.result peer past) ↔ ∃ exchange ∈ talk.transcript peer past, good exchange := by
  induction h generalizing past with
  | done result h =>
    refine iff_of_false h ?_
    rintro ⟨exchange, hExchange, -⟩
    cases hExchange
  | ask out next hGood hOther ih =>
    rw [result, transcript]
    by_cases hReply : good ⟨out, peer past out⟩
    · exact iff_of_true (hGood _ hReply _ _) ⟨_, List.mem_cons_self, hReply⟩
    · rw [ih _ hReply]
      constructor
      · rintro ⟨exchange, hExchange, hGood⟩
        exact ⟨exchange, List.mem_cons_of_mem _ hExchange, hGood⟩
      · rintro ⟨exchange, hExchange, hGood⟩
        obtain rfl | hLater := List.mem_cons.mp hExchange
        · exact absurd hGood hReply
        · exact ⟨exchange, hLater, hGood⟩

theorem Reports.bind {good : Exchange β → Prop} {succeeds : ρ → Prop} {laterSucceeds : τ → Prop} {talk : Talk α β ρ} {rest : ρ → Talk α β τ}
    (h : talk.Reports good succeeds) (hYes : ∀ result, succeeds result → ∀ peer past, laterSucceeds ((rest result).result peer past))
    (hNo : ∀ result, ¬ succeeds result → (rest result).Reports good laterSucceeds) : (talk.bind rest).Reports good laterSucceeds := by
  induction h with
  | done result h => exact hNo result h
  | ask out next hGood hOther ih =>
    refine .ask out _ (fun reply hReply peer past => ?_) ih
    rw [result_bind]
    exact hYes _ (hGood reply hReply peer past) _ _

/-! ## Two talks that cannot be told apart before an opening -/

/-- Up to an exchange that `opens` names both say the same, and what ends before it ends alike. -/
inductive Alike (opens : Exchange β → Prop) : Talk α β ρ → Talk α β ρ → Prop
  | done (result : ρ) : Alike opens (.done result) (.done result)
  | ask (out : α) (next other : β out → Talk α β ρ) (h : ∀ reply, ¬ opens ⟨out, reply⟩ → Alike opens (next reply) (other reply)) :
      Alike opens (.ask out next) (.ask out other)

theorem Alike.refl {opens : Exchange β → Prop} (talk : Talk α β ρ) : Alike opens talk talk := by
  induction talk with
  | done result => exact .done result
  | ask out next ih => exact .ask out next next fun reply _ => ih reply

theorem Alike.bind {opens : Exchange β → Prop} {talk other : Talk α β ρ} {rest otherRest : ρ → Talk α β τ} (h : Alike opens talk other)
    (hRest : ∀ result, Alike opens (rest result) (otherRest result)) : Alike opens (talk.bind rest) (other.bind otherRest) := by
  induction h with
  | done result => exact hRest result
  | ask out next other h ih => exact .ask out _ _ ih

/-- The same exchanges to the end and the same result; or the same exchanges up to the one that opens. -/
def ToldApartBehind (opens : Exchange β → Prop) (peer : Peer β) (talk other : Talk α β ρ) : Prop :=
  (talk.transcript peer [] = other.transcript peer [] ∧ talk.result peer [] = other.result peer []) ∨
    ∃ shared opening, opens opening ∧ shared ++ [opening] <+: talk.transcript peer [] ∧ shared ++ [opening] <+: other.transcript peer []

theorem Alike.toldApartBehind {opens : Exchange β → Prop} {talk other : Talk α β ρ} (h : Alike opens talk other)
    (peer : Peer β) : ToldApartBehind opens peer talk other := by
  suffices hPast : ∀ past, (talk.transcript peer past = other.transcript peer past ∧ talk.result peer past = other.result peer past) ∨
      ∃ shared opening, opens opening ∧ shared ++ [opening] <+: talk.transcript peer past ∧
        shared ++ [opening] <+: other.transcript peer past from hPast []
  induction h with
  | done result => exact fun past => .inl ⟨rfl, rfl⟩
  | ask out next other h ih =>
    intro past
    simp only [transcript, result]
    by_cases hOpens : opens ⟨out, peer past out⟩
    · refine .inr ⟨[], _, hOpens, ?_, ?_⟩
      all_goals exact ⟨_, rfl⟩
    · obtain ⟨hSame, hResult⟩ | ⟨shared, opening, hOpening, hTalk, hOther⟩ := ih _ hOpens (past ++ [⟨out, peer past out⟩])
      · exact .inl ⟨congrArg _ hSame, hResult⟩
      · refine .inr ⟨⟨out, peer past out⟩ :: shared, opening, hOpening, ?_, ?_⟩
        · exact (List.prefix_cons_inj _).mpr hTalk
        · exact (List.prefix_cons_inj _).mpr hOther

end Talk

end Pigeon.Library
