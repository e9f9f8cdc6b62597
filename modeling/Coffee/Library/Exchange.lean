import Mathlib.Data.List.Perm.Basic
import Mathlib.Data.List.Count
import Mathlib.Logic.Function.Basic
import Coffee.Library.Runs

/-! # Requests and replies

Any number of clients and one server. A client sends and receives in turns, the server receives and
sends in turns, a reply goes back to the peer of the last request, and messages may be lost.
-/

namespace Coffee.Library

open Runs

structure Exchange (ι ρ : Type*) where
  awaits : ι → Bool
  requests : List (ι × ρ)
  serves : Option ι
  replies : List (ι × ρ)

namespace Exchange

variable {ι ρ : Type*}

inductive Event (ι ρ : Type*)
  | sent (c : ι) (m : ρ)
  | accepted (c : ι) (m : ρ)
  | replied (m : ρ)
  | received (c : ι) (m : ρ)
  | lostRequest (c : ι) (m : ρ)
  | lostReply (c : ι) (m : ρ)

def idle : Exchange ι ρ := ⟨fun _ => false, [], none, []⟩

variable [DecidableEq ι] [DecidableEq ρ]

def step (x : Exchange ι ρ) : Event ι ρ → Option (Exchange ι ρ)
  | .sent c m =>
    if x.awaits c then none
    else some { x with
      awaits := Function.update x.awaits c true
      requests := x.requests ++ [(c, m)] }
  | .accepted c m =>
    if x.serves.isNone && x.requests.contains (c, m) then
      some { x with requests := x.requests.erase (c, m), serves := some c }
    else none
  | .replied m =>
    match x.serves with
    | none => none
    | some c => some { x with serves := none, replies := x.replies ++ [(c, m)] }
  | .received c m =>
    if x.awaits c && x.replies.contains (c, m) then
      some { x with
        awaits := Function.update x.awaits c false
        replies := x.replies.erase (c, m) }
    else none
  | .lostRequest c m => some { x with requests := x.requests.erase (c, m) }
  | .lostReply c m => some { x with replies := x.replies.erase (c, m) }

/-- What is on its way for the client: its request, the server's turn, or its reply. -/
def tokens (x : Exchange ι ρ) (c : ι) : Nat :=
  (x.requests.map Prod.fst).count c + (if x.serves = some c then 1 else 0) +
    (x.replies.map Prod.fst).count c

/-- The exchange beside the requests that the clients await an answer to, and the message that the
server received last. -/
structure Fits (Answers : ρ → ρ → Prop) (x : Exchange ι ρ) (asked : ι → Option ρ)
    (serving : Option ρ) : Prop where
  awaits : ∀ c, x.awaits c = (asked c).isSome
  requests : ∀ c m, (c, m) ∈ x.requests → asked c = some m
  serves : ∀ c, x.serves = some c → ∃ m ∈ serving, asked c = some m
  replies : ∀ c a, (c, a) ∈ x.replies → ∃ m, asked c = some m ∧ Answers m a
  single : ∀ c, x.tokens c ≤ if x.awaits c then 1 else 0

def askedAfter (asked : ι → Option ρ) : Event ι ρ → ι → Option ρ
  | .sent c m => Function.update asked c (some m)
  | .received c _ => Function.update asked c none
  | _ => asked

def servingAfter (serving : Option ρ) : Event ι ρ → Option ρ
  | .accepted _ m => some m
  | _ => serving

variable {Answers : ρ → ρ → Prop} {x x' : Exchange ι ρ} {asked : ι → Option ρ}
  {serving : Option ρ} {e : Event ι ρ} {c d : ι} {m : ρ}

omit [DecidableEq ρ] in
theorem fits_idle : Fits Answers (idle : Exchange ι ρ) (fun _ => none) none := by
  constructor <;> simp [idle, tokens]

theorem count_erase_fst {l : List (ι × ρ)} (h : (c, m) ∈ l) :
    (l.map Prod.fst).count d =
      ((l.erase (c, m)).map Prod.fst).count d + if c = d then 1 else 0 := by
  have hperm := ((List.perm_cons_erase h).map Prod.fst).count_eq d
  rw [hperm, List.map_cons, List.count_cons]
  simp

theorem count_erase_fst_le {l : List (ι × ρ)} :
    ((l.erase (c, m)).map Prod.fst).count d ≤ (l.map Prod.fst).count d :=
  ((List.erase_sublist).map Prod.fst).count_le d

omit [DecidableEq ρ] in
theorem tokens_pos_of_request (h : (c, m) ∈ x.requests) : 0 < x.tokens c := by
  have hcount : 0 < (x.requests.map Prod.fst).count c :=
    List.count_pos_iff.mpr (List.mem_map.mpr ⟨(c, m), h, rfl⟩)
  unfold tokens
  omega

omit [DecidableEq ρ] in
theorem tokens_pos_of_reply (h : (c, m) ∈ x.replies) : 0 < x.tokens c := by
  have hcount : 0 < (x.replies.map Prod.fst).count c :=
    List.count_pos_iff.mpr (List.mem_map.mpr ⟨(c, m), h, rfl⟩)
  unfold tokens
  omega

omit [DecidableEq ρ] in
theorem tokens_pos_of_serves (h : x.serves = some c) : 0 < x.tokens c := by
  simp only [tokens, h, if_true]
  omega

omit [DecidableEq ρ] in
theorem Fits.tokens_eq_zero (h : Fits Answers x asked serving) (hc : x.awaits c = false) :
    x.tokens c = 0 := by
  have hsingle := h.single c
  simpa [hc] using hsingle

theorem Fits.sent (h : Fits Answers x asked serving) (hstep : x' ∈ step x (.sent c m)) :
    Fits Answers x' (Function.update asked c (some m)) serving := by
  obtain ⟨hawaits, hstep⟩ := Option.ite_none_left_eq_some.mp hstep
  cases hstep
  rw [Bool.not_eq_true] at hawaits
  have hzero := h.tokens_eq_zero hawaits
  have hother : ∀ d, 0 < x.tokens d → Function.update asked c (some m) d = asked d := by
    intro d hd
    refine Function.update_of_ne ?_ _ _
    rintro rfl
    omega
  constructor
  · intro d
    grind [h.awaits d]
  · intro d m' hm'
    rcases List.mem_append.mp hm' with hold | hnew
    · rw [hother d (tokens_pos_of_request hold)]
      exact h.requests d m' hold
    · cases List.mem_singleton.mp hnew
      exact Function.update_self ..
  · intro d hd
    rw [hother d (tokens_pos_of_serves (x := x) hd)]
    exact h.serves d hd
  · intro d a ha
    rw [hother d (tokens_pos_of_reply (x := x) ha)]
    exact h.replies d a ha
  · intro d
    have hsingle := h.single d
    simp only [tokens, List.map_append, List.map_cons, List.map_nil,
      List.count_append] at hzero hsingle ⊢
    grind

theorem Fits.accepted (h : Fits Answers x asked serving) (hstep : x' ∈ step x (.accepted c m)) :
    Fits Answers x' asked (some m) := by
  obtain ⟨hguard, hstep⟩ := Option.ite_none_right_eq_some.mp hstep
  cases hstep
  obtain ⟨hserves, hmem⟩ : x.serves = none ∧ (c, m) ∈ x.requests := by simpa using hguard
  constructor
  · exact h.awaits
  · exact fun d m' hm' => h.requests d m' (List.mem_of_mem_erase hm')
  · rintro d ⟨⟩
    exact ⟨m, rfl, h.requests c m hmem⟩
  · exact h.replies
  · intro d
    have hsingle := h.single d
    have hcount := count_erase_fst (d := d) hmem
    simp only [tokens, hserves] at hsingle ⊢
    grind

theorem Fits.replied (h : Fits Answers x asked serving) (hstep : x' ∈ step x (.replied m))
    (hanswers : ∀ m' ∈ serving, Answers m' m) : Fits Answers x' asked serving := by
  cases hserves : x.serves with
  | none =>
    rw [step, hserves] at hstep
    cases hstep
  | some c =>
    rw [step, hserves] at hstep
    cases hstep
    constructor
    · exact h.awaits
    · exact h.requests
    · rintro d ⟨⟩
    · intro d a ha
      rcases List.mem_append.mp ha with hold | hnew
      · exact h.replies d a hold
      · obtain ⟨m', hm', hasked⟩ := h.serves c hserves
        cases List.mem_singleton.mp hnew
        exact ⟨m', hasked, hanswers m' hm'⟩
    · intro d
      have hsingle := h.single d
      simp only [tokens, hserves, List.map_append, List.map_cons, List.map_nil,
        List.count_append] at hsingle ⊢
      grind

theorem Fits.received (h : Fits Answers x asked serving) (hstep : x' ∈ step x (.received c m)) :
    Fits Answers x' (Function.update asked c none) serving := by
  obtain ⟨hguard, hstep⟩ := Option.ite_none_right_eq_some.mp hstep
  cases hstep
  obtain ⟨hawaits, hmem⟩ : x.awaits c = true ∧ (c, m) ∈ x.replies := by simpa using hguard
  have hpos := tokens_pos_of_reply hmem
  have hsingle := h.single c
  rw [if_pos hawaits] at hsingle
  -- the reply that is taken was all that was on its way for this client
  have hgone : tokens { x with replies := x.replies.erase (c, m) } c = 0 := by
    have hcount := count_erase_fst (d := c) hmem
    simp only [tokens, if_true] at hsingle hcount ⊢
    omega
  have hother : ∀ d, 0 < tokens { x with replies := x.replies.erase (c, m) } d →
      Function.update asked c none d = asked d := by
    intro d hd
    refine Function.update_of_ne ?_ _ _
    rintro rfl
    omega
  constructor
  · intro d
    grind [h.awaits d]
  · intro d m' hm'
    rw [hother d (tokens_pos_of_request hm')]
    exact h.requests d m' hm'
  · intro d hd
    rw [hother d (tokens_pos_of_serves hd)]
    exact h.serves d hd
  · intro d a ha
    rw [hother d (tokens_pos_of_reply ha)]
    exact h.replies d a (List.mem_of_mem_erase ha)
  · intro d
    have hsingle := h.single d
    have hle := count_erase_fst_le (c := c) (m := m) (d := d) (l := x.replies)
    simp only [tokens] at hgone hsingle ⊢
    grind

omit [DecidableEq ρ] in
theorem Fits.lost (h : Fits Answers x asked serving) (requests replies : List (ι × ρ))
    (hrequests : requests.Sublist x.requests) (hreplies : replies.Sublist x.replies) :
    Fits Answers { x with requests := requests, replies := replies } asked serving where
  awaits := h.awaits
  requests d m hm := h.requests d m (hrequests.subset hm)
  serves := h.serves
  replies d a ha := h.replies d a (hreplies.subset ha)
  single d := by
    have hsingle := h.single d
    have hle := (hrequests.map Prod.fst).count_le d
    have hle' := (hreplies.map Prod.fst).count_le d
    simp only [tokens] at hsingle ⊢
    omega

/-- Whatever the server replies answers the message that it received last, so each reply answers the
request that its client awaits an answer to. -/
theorem fits_step (h : Fits Answers x asked serving) (hstep : x' ∈ step x e)
    (hanswers : ∀ a, e = .replied a → ∀ m ∈ serving, Answers m a) :
    Fits Answers x' (askedAfter asked e) (servingAfter serving e) := by
  cases e with
  | sent c m => exact h.sent hstep
  | accepted c m => exact h.accepted hstep
  | replied a => exact h.replied hstep (hanswers a rfl)
  | received c a => exact h.received hstep
  | lostRequest c m =>
    cases hstep
    exact h.lost _ _ List.erase_sublist (List.Sublist.refl _)
  | lostReply c m =>
    cases hstep
    exact h.lost _ _ (List.Sublist.refl _) List.erase_sublist

theorem serves_of_replied (hstep : x' ∈ step x (.replied m)) :
    x.serves ≠ none ∧ x'.serves = none := by
  cases hserves : x.serves with
  | none =>
    rw [step, hserves] at hstep
    cases hstep
  | some c =>
    rw [step, hserves] at hstep
    cases hstep
    exact ⟨Option.some_ne_none c, rfl⟩

theorem serves_of_accepted (hstep : x' ∈ step x (.accepted c m)) :
    x.serves = none ∧ x'.serves = some c := by
  obtain ⟨hguard, hstep⟩ := Option.ite_none_right_eq_some.mp hstep
  cases hstep
  simp_all

/-- Only the server's own steps change whom it serves. -/
theorem serves_step (hstep : x' ∈ step x e) (haccepted : ∀ c m, e ≠ .accepted c m)
    (hreplied : ∀ m, e ≠ .replied m) : x'.serves = x.serves := by
  cases e with
  | accepted c m => exact absurd rfl (haccepted c m)
  | replied m => exact absurd rfl (hreplied m)
  | sent c m =>
    obtain ⟨-, hstep⟩ := Option.ite_none_left_eq_some.mp hstep
    cases hstep
    rfl
  | received c m =>
    obtain ⟨-, hstep⟩ := Option.ite_none_right_eq_some.mp hstep
    cases hstep
    rfl
  | lostRequest c m | lostReply c m =>
    cases hstep
    rfl

theorem not_awaits_of_sent (hstep : x' ∈ step x (.sent c m)) : x.awaits c = false := by
  obtain ⟨hawaits, -⟩ := Option.ite_none_left_eq_some.mp hstep
  simpa using hawaits

/-- A client that awaits a reply does so until it receives one. -/
theorem awaits_step (hstep : x' ∈ step x e) (hawaits : x.awaits c = true)
    (hreceived : ∀ m, e ≠ .received c m) : x'.awaits c = true := by
  cases e with
  | sent d m =>
    obtain ⟨-, hstep⟩ := Option.ite_none_left_eq_some.mp hstep
    cases hstep
    grind
  | accepted d m =>
    obtain ⟨-, hstep⟩ := Option.ite_none_right_eq_some.mp hstep
    cases hstep
    exact hawaits
  | replied m =>
    cases hserves : x.serves <;> rw [step, hserves] at hstep <;> cases hstep
    exact hawaits
  | received d m =>
    obtain ⟨-, hstep⟩ := Option.ite_none_right_eq_some.mp hstep
    cases hstep
    have hne : c ≠ d := by
      rintro rfl
      exact hreceived m rfl
    exact (Function.update_of_ne hne ..).trans hawaits
  | lostRequest d m | lostReply d m =>
    cases hstep
    exact hawaits

theorem Fits.received_answers (h : Fits Answers x asked serving)
    (hstep : x' ∈ step x (.received c m)) : ∃ m', asked c = some m' ∧ Answers m' m := by
  obtain ⟨hguard, -⟩ := Option.ite_none_right_eq_some.mp hstep
  have hmem : (c, m) ∈ x.replies := by simp_all
  exact h.replies c m hmem

end Exchange

end Coffee.Library
