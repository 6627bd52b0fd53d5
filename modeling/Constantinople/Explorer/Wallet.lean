/-
The wallet's next nonce, as in the explorer's `App.tsx`. Every submission reserves the next nonce at once
and waits; a failed one puts back the state from before its reservation if the state still is the one it
left. Refreshes merge what the node has committed, as far as the numbers of its JSON answer hold it. A refresh that
reports the reserved nonce itself does not change the state, so a failed submission can put back a nonce that the
wallet has seen on chain.
-/
import Constantinople.Explorer.Merge
import Constantinople.Lib.Double
import Constantinople.Lib.Run

namespace Constantinople

open Run

namespace Explorer

/-! ## The wallet -/

def nonceStatesEqual (left right : NonceState) : Bool := left.base == right.base && left.bitmap == right.bitmap

/-- The nonce of a fetched account. The numbers are doubles. -/
structure NonceView where
  base : Nat
  bitmap : Nat

/-- What `response.json()` makes of the nonce that the node has written. -/
def NonceView.ofJson (nonce : Nonce) : NonceView :=
  ⟨Double.roundNat nonce.base.toNat, Double.roundNat nonce.bitmap.toNat⟩

/-- The nonce state of a fetched account; `null` if there is no committed account yet. -/
def accountNonceState : Option NonceView → NonceState
  | none => emptyNonceState
  | some nonce => ⟨nonce.base, nonce.bitmap⟩

/-- The nonce state that the node has committed. -/
def committedNonceState : Option Nonce → NonceState
  | none => emptyNonceState
  | some nonce => .ofNonce nonce

/-- The states before and after a submission took its nonce. -/
structure Reservation where
  previous : NonceState
  next : NonceState

/-- The current state, the submissions that wait, and the committed states that refreshes have reported. -/
structure Wallet where
  nextNonce : NonceState
  pending : List Reservation
  merged : List NonceState

/-- A submission starts, or the one at a position of `pending` ends; an account is fetched. -/
inductive WalletEvent
  | submit
  | succeed (i : Nat)
  | fail (i : Nat)
  | refresh (account : Option Nonce)

namespace Wallet

/-- At the start of a session. -/
def signedIn : Wallet := ⟨emptyNonceState, [], []⟩

/-- `submitTransfer` up to its first `await`; it throws, and reserves nothing, if the nonce does not fit. -/
def submit (w : Wallet) : Wallet :=
  match consumeNonce w.nextNonce (nextAvailableNonce w.nextNonce) with
  | none => w
  | some next => { w with nextNonce := next, pending := w.pending ++ [⟨w.nextNonce, next⟩] }

/-- The `catch` of `submitTransfer`. -/
def rollback (w : Wallet) (reservation : Reservation) : NonceState :=
  if nonceStatesEqual w.nextNonce reservation.next then reservation.previous else w.nextNonce

def mergeLocalNonceState (w : Wallet) (committed : NonceState) : Wallet :=
  { w with nextNonce := mergeNonceStates w.nextNonce committed }

def step (w : Wallet) : WalletEvent → Option Wallet
  | .submit => some w.submit
  | .succeed i => if i < w.pending.length then some { w with pending := w.pending.eraseIdx i } else none
  | .fail i =>
    match w.pending[i]? with
    | none => none
    | some reservation => some { w with nextNonce := w.rollback reservation, pending := w.pending.eraseIdx i }
  | .refresh account => some { w.mergeLocalNonceState (accountNonceState (account.map .ofJson)) with
      merged := committedNonceState account :: w.merged }

theorem step_submit {w w' : Wallet} (h : w.step .submit = some w') :
    w' = w ∨ ∃ next, consumeNonce w.nextNonce (nextAvailableNonce w.nextNonce) = some next ∧
      w' = { w with nextNonce := next, pending := w.pending ++ [⟨w.nextNonce, next⟩] } := by
  cases h
  unfold submit
  split
  · exact .inl rfl
  · rename_i next hnext
    exact .inr ⟨next, hnext, rfl⟩

theorem step_succeed {w w' : Wallet} {i : Nat} (h : w.step (.succeed i) = some w') :
    w' = { w with pending := w.pending.eraseIdx i } := by
  simp only [step] at h
  split at h
  · exact (Option.some.inj h).symm
  · cases h

theorem step_fail {w w' : Wallet} {i : Nat} (h : w.step (.fail i) = some w') :
    ∃ reservation, w.pending[i]? = some reservation ∧
      w' = { w with nextNonce := w.rollback reservation, pending := w.pending.eraseIdx i } := by
  simp only [step] at h
  split at h
  · cases h
  · rename_i reservation hreservation
    exact ⟨reservation, hreservation, (Option.some.inj h).symm⟩

/-! ## Reservations -/

theorem nonceStatesEqual_iff {left right : NonceState} : nonceStatesEqual left right = true ↔ left = right := by
  cases left
  cases right
  simp [nonceStatesEqual]

theorem committedNonceState_bounded {account : Option Nonce}
    (h : ∀ nonce, account = some nonce → ∃ ns, nonce = Nonce.consumeAll ns) : (committedNonceState account).Bounded := by
  cases account with
  | none => exact NonceState.Reachable.empty.bounded
  | some nonce =>
    obtain ⟨ns, rfl⟩ := h nonce rfl
    exact ⟨_, rfl, Nonce.bounded_consumeAll ns⟩

/-- Taking the next nonce spends exactly that one. -/
theorem consumeNonce_next {s next : NonceState} (hs : s.Bounded) (h : consumeNonce s (nextAvailableNonce s) = some next) :
    next.Bounded ∧ next.spent = s.spent ∪ {nextAvailableNonce s} := by
  obtain ⟨t, rfl, ht⟩ := hs
  have hconsume := consumeNonce_eq t t.base
  rw [show consumeNonce (.ofNonce t) t.base.toNat = some next from h] at hconsume
  obtain ⟨t', hnext, rfl⟩ := Option.map_eq_some_iff.1 hconsume.symm
  obtain ⟨-, -, hspent⟩ := Nonce.nextNonceState_spec hnext
  refine ⟨⟨t', rfl, ht.next hnext⟩, ?_⟩
  ext m
  show t'.Spent m ↔ _
  rw [hspent, if_pos (by omega)]
  rfl

theorem mergeNonceStates_bounded {l r : NonceState} (hleft : l.Bounded) (hright : r.Bounded) :
    (mergeNonceStates l r).Bounded ∧ (mergeNonceStates l r).spent = l.spent ∪ r.spent := by
  obtain ⟨l, rfl, hl⟩ := hleft
  obtain ⟨r, rfl, hr⟩ := hright
  obtain ⟨s, hs, hbounded, hspent⟩ := mergeNonceStates_spent hl hr
  rw [hs]
  exact ⟨⟨s, rfl, hbounded⟩, hspent⟩

theorem nextAvailableNonce_unspent (s : NonceState) : nextAvailableNonce s ∉ s.spent := by
  unfold nextAvailableNonce NonceState.spent
  rintro (h | ⟨i, -, h⟩)
  · omega
  · omega

/-! ## Sessions -/

/-- Every committed state that was merged is still contained in the current one. -/
def Remembers (w : Wallet) : Prop := ∀ committed ∈ w.merged, committed.spent ⊆ w.nextNonce.spent

/-- A submission that fails and puts its previous state back has not seen its own nonce on chain. -/
def Unseen (w : Wallet) : WalletEvent → Prop
  | .fail i => ∀ reservation, w.pending[i]? = some reservation → w.nextNonce = reservation.next →
    ∀ committed ∈ w.merged, nextAvailableNonce reservation.previous ∉ committed.spent
  | _ => True

/-- The events of a session: the nonces of a fetched account were consumed by the node. -/
def Event : WalletEvent → Prop
  | .refresh account => ∀ nonce, account = some nonce → ∃ ns, nonce = Nonce.consumeAll ns
  | _ => True

/-- The base and the bitmap of a fetched account are numbers that a double holds. -/
def Exact : WalletEvent → Prop
  | .refresh account => ∀ nonce, account = some nonce → Double.roundNat nonce.base.toNat = nonce.base.toNat ∧
    Double.roundNat nonce.bitmap.toNat = nonce.bitmap.toNat
  | _ => True

theorem Exact.accountNonceState_eq {account : Option Nonce} (h : Exact (.refresh account)) :
    accountNonceState (account.map .ofJson) = committedNonceState account := by
  cases account with
  | none => rfl
  | some nonce =>
    obtain ⟨hbase, hbitmap⟩ := h nonce rfl
    simp only [Option.map_some, accountNonceState, NonceView.ofJson, hbase, hbitmap]
    rfl

theorem step_refresh {w w' : Wallet} {account : Option Nonce} (hexact : Exact (.refresh account))
    (h : w.step (.refresh account) = some w') : w' = { w with
      nextNonce := mergeNonceStates w.nextNonce (committedNonceState account)
      merged := committedNonceState account :: w.merged } := by
  cases h
  rw [hexact.accountNonceState_eq]
  rfl

/-- What holds of the states of a wallet, also when it forgets. -/
structure Formed (w : Wallet) : Prop where
  nextNonce : w.nextNonce.Bounded
  pending : ∀ reservation ∈ w.pending, reservation.previous.Bounded ∧
    reservation.next.spent = reservation.previous.spent ∪ {nextAvailableNonce reservation.previous}

theorem Formed.step {w w' : Wallet} {event : WalletEvent} (h : w.Formed) (hevent : Event event) (hexact : Exact event)
    (hstep : w.step event = some w') : w'.Formed := by
  cases event with
  | submit =>
    obtain rfl | ⟨next, hnext, rfl⟩ := step_submit hstep
    · exact h
    · obtain ⟨hbounded, hspent⟩ := consumeNonce_next h.nextNonce hnext
      refine ⟨hbounded, ?_⟩
      intro reservation hmem
      rcases List.mem_append.1 hmem with hmem | hmem
      · exact h.pending reservation hmem
      · obtain rfl := List.mem_singleton.1 hmem
        exact ⟨h.nextNonce, hspent⟩
  | succeed i =>
    obtain rfl := step_succeed hstep
    exact ⟨h.nextNonce, fun reservation hmem => h.pending reservation (List.mem_of_mem_eraseIdx hmem)⟩
  | fail i =>
    obtain ⟨reservation, hreservation, rfl⟩ := step_fail hstep
    refine ⟨?_, fun reservation hmem => h.pending reservation (List.mem_of_mem_eraseIdx hmem)⟩
    show (w.rollback reservation).Bounded
    unfold rollback
    split
    · exact (h.pending reservation (List.mem_of_getElem? hreservation)).1
    · exact h.nextNonce
  | refresh account =>
    obtain rfl := step_refresh hexact hstep
    exact ⟨(mergeNonceStates_bounded h.nextNonce (committedNonceState_bounded hevent)).1, h.pending⟩

/-- A failing submission keeps what was merged exactly if it does not put back a nonce seen on chain. -/
theorem Remembers.fail_iff {w w' : Wallet} {i : Nat} (hw : w.Formed) (h : w.Remembers) (hstep : w.step (.fail i) = some w') :
    w'.Remembers ↔ w.Unseen (.fail i) := by
  obtain ⟨reservation, hreservation, rfl⟩ := step_fail hstep
  obtain ⟨-, hspent⟩ := hw.pending reservation (List.mem_of_getElem? hreservation)
  unfold Remembers Unseen rollback
  by_cases heq : w.nextNonce = reservation.next
  · simp only [nonceStatesEqual_iff.2 heq, if_true]
    constructor
    · intro hkept reservation' hreservation' _ committed hmem hseen
      obtain rfl := Option.some.inj (hreservation.symm.trans hreservation')
      exact nextAvailableNonce_unspent _ (hkept committed hmem hseen)
    · intro hunseen committed hmem n hn
      -- of the state left by the submission only its own nonce goes
      have hspentNow := h committed hmem hn
      rw [heq, hspent] at hspentNow
      rcases hspentNow with hold | hown
      · exact hold
      · exact absurd (hown ▸ hn) (hunseen reservation hreservation heq committed hmem)
  · simp only [mt nonceStatesEqual_iff.1 heq, if_false, Bool.false_eq_true]
    constructor
    · intro _ reservation' hreservation' heq'
      obtain rfl := Option.some.inj (hreservation.symm.trans hreservation')
      exact absurd heq' heq
    · intro _
      exact h

theorem Remembers.step {w w' : Wallet} {event : WalletEvent} (hw : w.Formed) (h : w.Remembers) (hevent : Event event)
    (hexact : Exact event) (hunseen : w.Unseen event) (hstep : w.step event = some w') : w'.Remembers := by
  cases event with
  | submit =>
    obtain rfl | ⟨next, hnext, rfl⟩ := step_submit hstep
    · exact h
    · obtain ⟨-, hspent⟩ := consumeNonce_next hw.nextNonce hnext
      intro committed hmem
      show committed.spent ⊆ next.spent
      rw [hspent]
      exact (h committed hmem).trans Set.subset_union_left
  | succeed i =>
    obtain rfl := step_succeed hstep
    exact h
  | fail i => exact (h.fail_iff hw hstep).2 hunseen
  | refresh account =>
    obtain rfl := step_refresh hexact hstep
    obtain ⟨-, hspent⟩ := mergeNonceStates_bounded hw.nextNonce (committedNonceState_bounded hevent)
    intro committed hmem
    show committed.spent ⊆ (mergeNonceStates w.nextNonce (committedNonceState account)).spent
    rw [hspent]
    rcases List.mem_cons.1 hmem with rfl | hmem
    · exact Set.subset_union_right
    · exact (h committed hmem).trans Set.subset_union_left

/-- In every session in which the numbers of fetched accounts are ones that a double holds and no failing submission
puts back a nonce seen on chain, the wallet keeps all committed nonces it has merged, and takes none of them. The
condition on failures cannot be left out: a failure that does not meet it makes the wallet forget. -/
theorem committed_nonces_kept {events : List WalletEvent} {w : Wallet}
    (h : Trace (fun w event w' => Event event ∧ Exact event ∧ w.Unseen event ∧ w.step event = some w') signedIn events w) :
    w.Remembers ∧ (∀ committed ∈ w.merged, nextAvailableNonce w.nextNonce ∉ committed.spent) ∧
    ∀ i w', w.step (.fail i) = some w' → (w'.Remembers ↔ w.Unseen (.fail i)) := by
  obtain ⟨hw, hremembers⟩ : w.Formed ∧ w.Remembers := by
    refine Trace.invariant (I := fun w => w.Formed ∧ w.Remembers) ?_ ?_ h
    · rintro w event w' ⟨hw, hremembers⟩ ⟨hevent, hexact, hunseen, hstep⟩
      exact ⟨hw.step hevent hexact hstep, hremembers.step hw hevent hexact hunseen hstep⟩
    · refine ⟨⟨NonceState.Reachable.empty.bounded, ?_⟩, ?_⟩
      · exact List.forall_mem_nil _
      · exact List.forall_mem_nil _
  refine ⟨hremembers, ?_, fun i w' hstep => hremembers.fail_iff hw hstep⟩
  intro committed hmem hseen
  exact nextAvailableNonce_unspent _ (hremembers committed hmem hseen)

/-- A submission fails before the node has seen it, and its nonce is used again by the next one, which the
node commits. -/
theorem committed_nonces_kept_sample :
    ∃ (events : List WalletEvent) (w : Wallet),
      Trace (fun w event w' => Event event ∧ Exact event ∧ w.Unseen event ∧ w.step event = some w') signedIn events w ∧
      w.merged = [⟨1, 0⟩] ∧ nextAvailableNonce w.nextNonce = 1 ∧ w.Remembers := by
  have hunseen : ∀ w : Wallet, w.merged = [] → w.Unseen (.fail 0) := by
    intro w hmerged reservation _ _ committed hmem
    rw [hmerged] at hmem
    cases hmem
  have hcommitted : Event (.refresh (some ⟨1, 0⟩)) := by
    rintro nonce ⟨⟩
    exact ⟨[0], rfl⟩
  have hexact : Exact (.refresh (some ⟨1, 0⟩)) := by
    rintro nonce ⟨⟩
    exact ⟨Double.roundNat_of_le (by decide), Double.roundNat_of_le (by decide)⟩
  have htrace : Trace (fun w event w' => Event event ∧ Exact event ∧ w.Unseen event ∧ w.step event = some w') signedIn
      [.submit, .fail 0, .submit, .refresh (some ⟨1, 0⟩), .succeed 0] _ :=
    .cons ⟨trivial, trivial, trivial, rfl⟩ (.cons ⟨trivial, trivial, hunseen _ rfl, rfl⟩
      (.cons ⟨trivial, trivial, trivial, rfl⟩ (.cons ⟨hcommitted, hexact, trivial, rfl⟩
        (.cons ⟨trivial, trivial, trivial, rfl⟩ (.nil _)))))
  exact ⟨_, _, htrace, rfl, rfl, (committed_nonces_kept htrace).1⟩

/-- Nonces 1 and 61 are committed. A double does not hold the bitmap, and after one more submission the wallet takes
nonce 1. -/
example : Nonce.consumeAll [1, 61] = ⟨0, 2 ^ 60 + 1⟩ ∧
    (run step signedIn [.refresh (some ⟨0, 2 ^ 60 + 1⟩), .submit]).map (fun w => nextAvailableNonce w.nextNonce) = some 1 := by
  decide +kernel

/-- The node commits the first submission, a refresh merges that, and then the submission's own answer is
lost: the next submission takes nonce 0 again. -/
theorem committed_nonce_forgotten :
    ∃ (events : List WalletEvent) (w : Wallet),
      Trace (fun w event w' => Event event ∧ w.step event = some w') signedIn events w ∧
      ∃ committed ∈ w.merged, nextAvailableNonce w.nextNonce ∈ committed.spent := by
  have hcommitted : Event (.refresh (some ⟨1, 0⟩)) := by
    rintro nonce ⟨⟩
    exact ⟨[0], rfl⟩
  have htrace : Trace (fun w event w' => Event event ∧ w.step event = some w') signedIn
      [.submit, .refresh (some ⟨1, 0⟩), .fail 0] _ :=
    .cons ⟨trivial, rfl⟩ (.cons ⟨hcommitted, rfl⟩ (.cons ⟨trivial, rfl⟩ (.nil _)))
  exact ⟨_, _, htrace, _, List.mem_singleton.2 rfl, .inl (by decide)⟩

end Wallet

end Explorer

end Constantinople
