import JobScripts.Mail.Grants

/-!
# The grants that are left

Which refresh tokens the provider goes on to accept, in the runs of `JobScripts.Mail.Grants`. A token is with its row,
with a worker that is about to store it, with a connection that is, or with a disconnection that will revoke it. A
token that nobody keeps is a grant that the person can no longer take back here. It comes from the steps that `Tidy`
leaves out, or from a lost answer, and from nothing else (`disconnect_leaves_no_grant`).
-/

namespace JobScripts.Mail.Grants

open Lib

/-- The condition on a step: a person consents to all that is asked, the answer is stored, and in a row that is not
there yet; and what is revoked arrives. -/
def Tidy (s : State) : Act → Prop
  | .exchange _ (.token scopes refresh_token _ _) => refresh_token = true → scopes = true
  | .upsert _ => s.row = none
  | .abandon x => s.connects x = none
  | .revoke _ arrives => arrives = true
  | _ => True

/-- Every token that the provider accepts is kept somewhere, and not in the row that a worker is about to change. -/
structure Accounted (s : State) : Prop where
  fresh : ∀ o t, s.token o = some t → t < s.issued
  kept : ∀ t, s.live t = true → ∃ o, s.token o = some t
  replaced : ∀ w t u, s.token (.call w) = some t → s.token .row = some u → s.live u = false

section Tidy

variable {s s' : State} {w : ℕ} {now : ℤ} {a : Act}

/-- The same tokens are kept, and no other is accepted. -/
theorem Accounted.same (h : Accounted s) (htoken : s'.token = s.token) (hissued : s.issued ≤ s'.issued)
    (hlive : ∀ t, s'.live t = true → s.live t = true) : Accounted s' where
  fresh o t ho := Nat.lt_of_lt_of_le (h.fresh o t (htoken ▸ ho)) hissued
  kept t ht := htoken ▸ h.kept t (hlive t ht)
  replaced w t u hw hu := by
    rw [htoken] at hw hu
    rw [← Bool.not_eq_true]
    intro hlives
    exact Bool.noConfusion ((h.replaced w t u hw hu).symm.trans (hlive u hlives))

/-- A call ends that keeps no token. -/
theorem Accounted.reply (h : Accounted s) (hcall : (s.calls w).bind Call.rotated = none)
    (hrow : s'.row.map Row.refresh_token = s.row.map Row.refresh_token) (hcalls : s'.calls = (s.leave w).calls)
    (hconnects : s'.connects = s.connects) (hdisconnects : s'.disconnects = s.disconnects)
    (hissued : s.issued ≤ s'.issued) (hlive : s'.live = s.live) : Accounted s' := by
  refine h.same ?_ hissued fun t ht => hlive ▸ ht
  rw [← token_leave hcall]
  funext o
  cases o with
  | row => exact hrow
  | call w' => rw [State.token, State.token, hcalls]
  | connect x => rw [State.token, hconnects]; rfl
  | disconnect y => rw [State.token, hdisconnects]; rfl

/-- A call goes on that keeps none, and will not. -/
theorem Accounted.goto (h : Accounted s) (call : Call) (hcall : (s.calls w).bind Call.rotated = none)
    (hafter : call.rotated = none) (hrow : s'.row = s.row) (hcalls : s'.calls = (s.goto w call).calls)
    (hconnects : s'.connects = s.connects) (hdisconnects : s'.disconnects = s.disconnects)
    (hissued : s.issued ≤ s'.issued) (hlive : s'.live = s.live) : Accounted s' := by
  have htoken : s'.token = (s.goto w call).token := token_congr hrow hcalls hconnects hdisconnects
  exact h.same (htoken.trans (token_goto hcall hafter)) hissued fun t ht => hlive ▸ ht

/-- The provider replaces the token of the row, and the call keeps the new one. -/
theorem Accounted.rotate (h : Accounted s) {access_token expires_in : ℕ} {row : Row}
    (hcall : s.calls w = some (.refreshing now row.refresh_token)) (hrow : s.row = some row) (hrow' : s'.row = s.row)
    (hcalls : s'.calls = Function.update s.calls w (some (.answered now access_token expires_in (some s.issued))))
    (hconnects : s'.connects = s.connects) (hdisconnects : s'.disconnects = s.disconnects)
    (hissued : s'.issued = s.issued + 2)
    (hlive : s'.live = Function.update (Function.update s.live row.refresh_token false) s.issued true) :
    Accounted s' := by
  have hself : s'.token (.call w) = some s.issued := by
    rw [State.token, hcalls, Function.update_self]
    rfl
  have hother : ∀ o, o ≠ .call w → s'.token o = s.token o :=
    fun o hne => token_of_ne_call hrow' hcalls hconnects hdisconnects hne
  have hkeptRow : s.token .row = some row.refresh_token := by
    rw [State.token, hrow]
    rfl
  refine ⟨fun o t ho => ?_, fun t ht => ?_, fun w' t u hw' hu => ?_⟩
  · by_cases hne : o = .call w
    · rw [hne, hself] at ho
      have := Option.some_inj.mp ho
      omega
    · rw [hother o hne] at ho
      have := h.fresh o t ho
      omega
  · -- What was accepted is kept where it was, but for the token of the row, which is not accepted any more.
    by_cases hnew : t = s.issued
    · exact ⟨.call w, by rw [hself, hnew]⟩
    rw [hlive, Function.update_of_ne hnew] at ht
    have hold : t ≠ row.refresh_token := by
      rintro rfl
      rw [Function.update_self] at ht
      contradiction
    rw [Function.update_of_ne hold] at ht
    obtain ⟨o, ho⟩ := h.kept t ht
    refine ⟨o, (hother o ?_).trans ho⟩
    rintro rfl
    rw [State.token, hcall] at ho
    contradiction
  · rw [hother .row Owner.noConfusion, hkeptRow] at hu
    obtain rfl := Option.some_inj.mp hu
    have hlt := h.fresh .row _ hkeptRow
    rw [hlive, Function.update_of_ne (by omega), Function.update_self]

/-- A token moves from one place to another where no call keeps one afterwards. -/
theorem Accounted.move (h : Accounted s) (p q : Owner)
    (hmoved : ∀ t, s.token p = some t → s.live t = true → s'.token q = some t)
    (hstays : ∀ o t, o ≠ p → s.token o = some t → s.live t = true → s'.token o = some t)
    (htoken : ∀ o t, s'.token o = some t → ∃ o', s.token o' = some t) (hissued : s'.issued = s.issued)
    (hlive : s'.live = s.live) (hcalls : ∀ w, s'.token (.call w) = none) : Accounted s' := by
  refine ⟨fun o t ho => ?_, fun t ht => ?_, fun w t u hw hu => ?_⟩
  · obtain ⟨o', ho'⟩ := htoken o t ho
    exact hissued ▸ h.fresh o' t ho'
  · rw [hlive] at ht
    obtain ⟨o, ho⟩ := h.kept t ht
    by_cases hp : o = p
    · exact ⟨q, hmoved t (hp ▸ ho) ht⟩
    · exact ⟨o, hstays o t hp ho ht⟩
  · rw [hcalls w] at hw
    contradiction

/-- A connection is granted a token that nobody has. -/
theorem Accounted.grant (h : Accounted s) {x : ℕ} {connect : Connect} (hconnect : s.connects x = none)
    (hnew : connect.refreshToken = s.issued) (hrow : s'.row = s.row) (hcalls : s'.calls = s.calls)
    (hconnects : s'.connects = Function.update s.connects x (some connect))
    (hdisconnects : s'.disconnects = s.disconnects) (hissued : s'.issued = s.issued + 2)
    (hlive : s'.live = Function.update s.live s.issued true) : Accounted s' := by
  have hself : s'.token (.connect x) = some s.issued := by
    rw [State.token, hconnects, Function.update_self, Option.map_some, hnew]
  have hother : ∀ o, o ≠ .connect x → s'.token o = s.token o :=
    fun o hne => token_of_ne_connect hrow hcalls hconnects hdisconnects hne
  refine ⟨fun o t ho => ?_, fun t ht => ?_, fun w t u hw hu => ?_⟩
  · by_cases hne : o = .connect x
    · rw [hne, hself] at ho
      have := Option.some_inj.mp ho
      omega
    · rw [hother o hne] at ho
      have := h.fresh o t ho
      omega
  · by_cases hfirst : t = s.issued
    · exact ⟨.connect x, by rw [hself, hfirst]⟩
    rw [hlive, Function.update_of_ne hfirst] at ht
    obtain ⟨o, ho⟩ := h.kept t ht
    refine ⟨o, (hother o ?_).trans ho⟩
    rintro rfl
    rw [State.token, hconnect] at ho
    contradiction
  · rw [hother _ Owner.noConfusion] at hw hu
    have hlt := h.fresh .row u hu
    rw [hlive, Function.update_of_ne (by omega)]
    exact h.replaced w t u hw hu

/-- The answer to a call that keeps the lock, where none is lost. -/
theorem Accounted.answer (h : Accounted s) (hsound : Sound s) {refresh_token : ℕ}
    (hcall : s.calls w = some (.refreshing now refresh_token)) {b : Answer}
    (hs : s.answer w now refresh_token b = some s') (hlost : s'.lost = false) : Accounted s' := by
  have hnone : (s.calls w).bind Call.rotated = none := by rw [hcall]; rfl
  obtain ⟨row, hrow, rfl⟩ := hsound.shown w now refresh_token hcall
  rcases answer_cases hs with ⟨asked, rfl⟩ | ⟨-, rotated, expires_in, rfl⟩ | ⟨-, rfl⟩ |
    ⟨-, rotated, expires_in, -, rfl⟩
  · exact h.reply hnone rfl rfl rfl rfl (Nat.le_refl _) rfl
  · -- The answer has replaced no token, as none is lost.
    obtain rfl : rotated = false := (Bool.or_eq_false_iff.mp hlost).2
    exact h.reply hnone rfl rfl rfl rfl (Nat.le_add_right _ _) rfl
  · exact h.goto (.rejected now) hnone rfl rfl rfl rfl rfl (Nat.le_refl _) rfl
  · cases rotated with
    | false =>
      exact h.goto (.answered now (s.issued + 1) (expires_in.getD 0) none) hnone rfl rfl rfl rfl rfl
        (Nat.le_add_right _ _) rfl
    | true => exact h.rotate hcall hrow rfl rfl rfl rfl rfl rfl

/-- What a call has got is stored. -/
theorem Accounted.store (h : Accounted s) (hsound : Sound s) {access_token expires_in : ℕ} {refresh_token : Option ℕ}
    {row row' : Row} (hcall : s.calls w = some (.answered now access_token expires_in refresh_token))
    (hrow : s.row = some row) (hrow' : s'.row = some row')
    (htoken : row'.refresh_token = refresh_token.getD row.refresh_token) (hcalls : s'.calls = (s.leave w).calls)
    (hconnects : s'.connects = s.connects) (hdisconnects : s'.disconnects = s.disconnects)
    (hissued : s'.issued = s.issued) (hlive : s'.live = s.live) : Accounted s' := by
  have hgot : s.token (.call w) = refresh_token := by
    rw [State.token, hcall]
    rfl
  cases hrefresh : refresh_token with
  | none =>
    have hnone : (s.calls w).bind Call.rotated = none := hgot.trans hrefresh
    refine h.reply hnone ?_ hcalls hconnects hdisconnects (Nat.le_of_eq hissued.symm) hlive
    rw [hrow', hrow, Option.map_some, Option.map_some, htoken, hrefresh]
    rfl
  | some r =>
    rw [hrefresh] at hgot htoken
    have hstored : s'.token .row = some r := by
      rw [State.token, hrow', Option.map_some, htoken]
      rfl
    have hended : ∀ w', s'.token (.call w') = none := by
      intro w'
      by_cases hne : w' = w
      · rw [State.token, hcalls, hne, calls_leave_self]
        rfl
      · rw [State.token, hcalls, calls_leave hne]
        cases hother : (s.calls w').bind Call.rotated with
        | none => rfl
        | some t => exact absurd (Option.some_inj.mp ((hsound.rotated hother).symm.trans (hsound.rotated hgot))) hne
    refine h.move (.call w) .row (fun t ht _ => ?_) (fun o t hne ho ht => ?_) (fun o t ho => ?_) hissued hlive hended
    · exact hstored.trans (hgot.symm.trans ht)
    · cases o with
      | row =>
        -- The token that is replaced is one that the provider no longer accepts.
        exact Bool.noConfusion ((h.replaced w r t hgot ho).symm.trans ht)
      | call w' =>
        have hw' : w' ≠ w := fun heq => hne (heq ▸ rfl)
        exact absurd (Option.some_inj.mp ((hsound.rotated ho).symm.trans (hsound.rotated hgot))) hw'
      | connect x => rw [State.token, hconnects]; exact ho
      | disconnect y => rw [State.token, hdisconnects]; exact ho
    · cases o with
      | row => exact ⟨.call w, hgot.trans (hstored.symm.trans ho)⟩
      | call w' =>
        rw [hended w'] at ho
        contradiction
      | connect x => exact ⟨.connect x, by rw [State.token, hconnects] at ho; exact ho⟩
      | disconnect y => exact ⟨.disconnect y, by rw [State.token, hdisconnects] at ho; exact ho⟩

/-- Where the lock is free, no call keeps a token. -/
theorem Sound.token_free (h : Sound s) (hfree : s.holder = none) (w : ℕ) : s.token (.call w) = none := by
  cases htoken : s.token (.call w) with
  | none => rfl
  | some t =>
    rw [h.rotated htoken] at hfree
    contradiction

/-- What is accepted after one token no longer is. -/
theorem update_false {live : ℕ → Bool} {r t : ℕ} (ht : Function.update live r false t = true) :
    t ≠ r ∧ live t = true := by
  have hne : t ≠ r := by
    rintro rfl
    rw [Function.update_self] at ht
    contradiction
  exact ⟨hne, by rwa [Function.update_of_ne hne] at ht⟩

/-- A token is revoked, and forgotten. -/
theorem Accounted.revoke (h : Accounted s) {y r : ℕ} (hrevokes : s.disconnects y = some r) :
    Accounted { s with disconnects := Function.update s.disconnects y none, live := Function.update s.live r false }
    where
  fresh o t ho := h.fresh o t (token_revoked ho)
  kept t ht := by
    obtain ⟨hne, ht⟩ := update_false ht
    obtain ⟨o, ho⟩ := h.kept t ht
    refine ⟨o, ?_⟩
    cases o with
    | disconnect y' =>
      have hy' : y' ≠ y := by
        rintro rfl
        exact hne (Option.some_inj.mp (ho.symm.trans hrevokes))
      simpa only [State.token, Function.update_of_ne hy'] using ho
    | row | call | connect => exact ho
  replaced w t u hw hu := by
    have hdead := h.replaced w t u hw hu
    rw [← Bool.not_eq_true] at hdead ⊢
    exact fun hlive => hdead (update_false hlive).2

/-- Every step that is tidy, and loses no answer, keeps account of the tokens. -/
theorem Accounted.step (h : Accounted s) (hsound : Sound s) (htidy : Tidy s a) (hs : Grants.step s a = some s')
    (hlost : s'.lost = false) : Accounted s' := by
  cases a with
  | tick seconds =>
    obtain rfl := Option.some_inj.mp hs
    exact h.same rfl (Nat.le_refl _) fun _ => id
  -- A call of `access_token`: it reads, it waits for the lock, and it asks the provider.
  | begin w =>
    simp only [Grants.step] at hs
    split at hs
    · next hcall =>
      obtain rfl := Option.some_inj.mp hs
      exact h.goto (.begun s.clock) (by rw [hcall]; rfl) rfl rfl rfl rfl rfl (Nat.le_refl _) rfl
    · contradiction
  | select w =>
    simp only [Grants.step] at hs
    split at hs
    · next now hcall =>
      have hnone : (s.calls w).bind Call.rotated = none := by rw [hcall]; rfl
      split at hs
      · obtain rfl := Option.some_inj.mp hs
        exact h.goto (.waiting now s.insertions) hnone rfl rfl rfl rfl rfl (Nat.le_refl _) rfl
      · obtain rfl := Option.some_inj.mp hs
        exact h.reply hnone rfl rfl rfl rfl (Nat.le_refl _) rfl
    · contradiction
  | lock w =>
    simp only [Grants.step] at hs
    split at hs
    · next now insertion hcall =>
      have hnone : (s.calls w).bind Call.rotated = none := by rw [hcall]; rfl
      split at hs
      · next row hrow =>
        split at hs
        · rw [Option.ite_none_right_eq_some] at hs
          obtain ⟨-, hs⟩ := hs
          obtain rfl := Option.some_inj.mp hs
          -- A row that is no longer there, or is good still, is answered at once.
          rcases read_cases s w now row with ⟨-, heq⟩ | ⟨access_token, expires, -, -, -, heq⟩ | ⟨-, -, heq⟩
          · exact heq ▸ h.reply hnone rfl rfl rfl rfl (Nat.le_refl _) rfl
          · exact heq ▸ h.reply hnone rfl rfl rfl rfl (Nat.le_refl _) rfl
          · exact heq ▸ h.goto (.refreshing now row.refresh_token) hnone rfl rfl rfl rfl rfl (Nat.le_refl _) rfl
        · obtain rfl := Option.some_inj.mp hs
          exact h.reply hnone rfl rfl rfl rfl (Nat.le_refl _) rfl
      · obtain rfl := Option.some_inj.mp hs
        exact h.reply hnone rfl rfl rfl rfl (Nat.le_refl _) rfl
    · contradiction
  | answer w a =>
    simp only [Grants.step] at hs
    split at hs
    · next now refresh_token hcall => exact h.answer hsound hcall hs hlost
    · contradiction
  -- The call that was answered stores the token, or marks the row.
  | store w =>
    simp only [Grants.step] at hs
    split at hs
    · next now access_token expires_in refresh_token row hcall hrow =>
      obtain rfl := Option.some_inj.mp hs
      exact h.store hsound hcall hrow rfl rfl rfl rfl rfl rfl rfl
    · contradiction
  | mark w =>
    simp only [Grants.step] at hs
    split at hs
    · next now row hcall hrow =>
      obtain rfl := Option.some_inj.mp hs
      exact h.reply (by rw [hcall]; rfl) (by rw [hrow]; rfl) rfl rfl rfl (Nat.le_refl _) rfl
    · contradiction
  | crash w =>
    simp only [Grants.step] at hs
    split at hs
    · next call hcall =>
      obtain rfl := Option.some_inj.mp hs
      -- A call that had a new token would lose it here.
      have hnone : (s.calls w).bind Call.rotated = none := by
        rw [hcall, Option.bind_some, ← Option.isNone_iff_eq_none, ← Option.isSome_eq_false_iff]
        exact (Bool.or_eq_false_iff.mp hlost).2
      exact h.reply hnone rfl rfl rfl rfl (Nat.le_refl _) rfl
    · contradiction
  -- A person connects: the code is exchanged, and the answer comes back.
  | exchange x a =>
    simp only [Grants.step] at hs
    split at hs
    · exact Option.some_inj.mp hs ▸ h
    · next scopes refresh_token access_token expires_in hconnect =>
      split at hs
      · next hboth =>
        obtain rfl := Option.some_inj.mp hs
        rw [if_pos (Bool.and_eq_true_iff.mp hboth).2]
        exact h.grant hconnect rfl rfl rfl rfl rfl rfl rfl
      · next hnot =>
        obtain rfl := Option.some_inj.mp hs
        -- A token without the scopes would be one that nobody keeps.
        have hgiven : refresh_token = false := by
          rw [← Bool.not_eq_true]
          exact fun hgiven => hnot (Bool.and_eq_true_iff.mpr ⟨htidy hgiven, hgiven⟩)
        refine h.same rfl (Nat.le_add_right _ _) fun t ht => ?_
        rwa [hgiven, if_neg Bool.false_ne_true] at ht
    · contradiction
  | send x =>
    simp only [Grants.step] at hs
    split at hs
    · next answered refresh_token access_token expires_in hconnect =>
      obtain rfl := Option.some_inj.mp hs
      exact h.same (token_connect hconnect rfl) (Nat.le_refl _) fun _ => id
    · contradiction
  -- The connection writes the row.
  | upsert x =>
    simp only [Grants.step] at hs
    split at hs
    · next now refresh_token access_token expires_in hconnect =>
      rw [Option.ite_none_right_eq_some] at hs
      obtain ⟨hfree, hs⟩ := hs
      obtain rfl := Option.some_inj.mp hs
      have hkept : s.token (.connect x) = some refresh_token := by
        rw [State.token, hconnect]
        rfl
      -- The row that would be written over is the one whose token would be lost: there is none.
      refine h.move (.connect x) .row (fun t ht _ => hkept.symm.trans ht) (fun o t hne ho _ => ?_)
        -- Otherwise the tokens stay where they are.
        (fun o t ho => ?_) rfl rfl (hsound.token_free hfree)
      · cases o with
        | row =>
          rw [State.token, show s.row = none from htidy] at ho
          contradiction
        | connect x' =>
          have hx' : x' ≠ x := fun heq => hne (heq ▸ rfl)
          simpa only [State.token, Function.update_of_ne hx'] using ho
        | call | disconnect => exact ho
      · by_cases hne : o = .row
        · exact ⟨.connect x, hkept.trans ((congrArg _ hne).symm.trans ho)⟩
        · exact ⟨o, token_forget (fun heq => absurd heq hne) ho⟩
    · contradiction
  | abandon x =>
    obtain rfl := Option.some_inj.mp hs
    refine h.same (token_congr rfl rfl ?_ rfl) (Nat.le_refl _) fun _ => id
    exact Function.update_eq_self_iff.mpr (show s.connects x = none from htidy).symm
  -- A person disconnects: the row goes, and its token is taken along to be revoked.
  | delete y =>
    simp only [Grants.step] at hs
    split at hs
    · next row hnone hrow =>
      rw [Option.ite_none_right_eq_some] at hs
      obtain ⟨hfree, hs⟩ := hs
      obtain rfl := Option.some_inj.mp hs
      have hkept : s.token .row = some row.refresh_token := by
        rw [State.token, hrow]
        rfl
      have hself : Function.update s.disconnects y (some row.refresh_token) y = some row.refresh_token :=
        Function.update_self _ _ _
      refine h.move .row (.disconnect y) (fun t ht _ => hself.trans (hkept.symm.trans ht)) (fun o t hne ho _ => ?_)
        (fun o t ho => ?_) rfl rfl (hsound.token_free hfree)
      · cases o with
        | row => exact absurd rfl hne
        | disconnect y' =>
          have hy' : y' ≠ y := by
            rintro rfl
            rw [State.token, hnone] at ho
            contradiction
          simpa only [State.token, Function.update_of_ne hy'] using ho
        | call | connect => exact ho
      · by_cases hne : o = .disconnect y
        · subst hne
          exact ⟨.row, hkept.trans (hself.symm.trans ho)⟩
        · exact ⟨o, token_delete hne ho⟩
    · contradiction
  -- The token is revoked once the request arrives.
  | revoke y arrives =>
    simp only [Grants.step] at hs
    split at hs
    · next refresh_token hrevokes =>
      obtain rfl := Option.some_inj.mp hs
      obtain rfl : arrives = true := htidy
      exact h.revoke hrevokes
    · contradiction
  | drop refresh_token =>
    obtain rfl := Option.some_inj.mp hs
    exact h.same rfl (Nat.le_refl _) fun t ht => (update_false ht).2

/-- Nobody keeps a token at the start. -/
theorem Accounted.start (clock : ℤ) : Accounted (.start clock) where
  fresh o t ho := by
    cases o <;> contradiction
  kept t ht := by
    simp only [State.start] at ht
    contradiction
  replaced w t u hw := by
    simp only [State.token, State.start, Option.bind_none] at hw
    contradiction

end Tidy

/-- In every run in which the person consents to all that is asked, what is granted is stored, and while there is no
row, and what is revoked arrives, and in which no answer that replaces a token is lost: when there is no row, and no
connection or disconnection is under way, the provider accepts no refresh token, whatever the workers did. -/
theorem disconnect_leaves_no_grant {clock : ℤ} {s : State} (h : Run step Tidy (.start clock) s)
    (hlost : s.lost = false) (hrow : s.row = none) (hconnects : ∀ x, s.connects x = none)
    (hdisconnects : ∀ y, s.disconnects y = none) (t : ℕ) : s.live t = false := by
  have hinv : Sound s ∧ (s.lost = false → Accounted s) := by
    refine h.invariant (I := fun s => Sound s ∧ (s.lost = false → Accounted s))
      ⟨.start clock, fun _ => .start clock⟩ ?_
    intro s a s' ⟨hsound, haccounted⟩ htidy hs
    exact ⟨hsound.step hs, fun hlost => (haccounted (lost_of_step hs hlost)).step hsound htidy hs hlost⟩
  obtain ⟨hsound, haccounted⟩ := hinv
  -- A call that keeps a token has the lock of a row.
  have hcalls : ∀ w, s.token (.call w) = none := by
    refine hsound.token_free (Option.eq_none_iff_forall_ne_some.mpr fun w hw => ?_)
    obtain ⟨row, hsome, -⟩ := hsound.row w hw
    rw [hrow] at hsome
    contradiction
  rw [← Bool.not_eq_true]
  intro hlive
  obtain ⟨o, ho⟩ := (haccounted hlost).kept t hlive
  cases o with
  | row =>
    rw [State.token, hrow] at ho
    contradiction
  | call w =>
    rw [hcalls w] at ho
    contradiction
  | connect x =>
    rw [State.token, hconnects x] at ho
    contradiction
  | disconnect y =>
    rw [State.token, hdisconnects y] at ho
    contradiction

/-- Whether a step is tidy can be decided. -/
instance decidableTidy (s : State) : ∀ a, Decidable (Tidy s a)
  | .exchange _ (.token scopes refresh_token _ _) =>
    inferInstanceAs (Decidable (refresh_token = true → scopes = true))
  | .upsert _ => inferInstanceAs (Decidable (s.row = none))
  | .abandon x => decidable_of_iff ((s.connects x).isNone = true) Option.isNone_iff_eq_none
  | .revoke _ arrives => inferInstanceAs (Decidable (arrives = true))
  | .exchange _ .failed | .tick _ | .begin _ | .select _ | .lock _ | .answer .. | .store _ | .mark _ | .crash _
  | .send _ | .delete _ | .drop _ => isTrue trivial

/-- A person connects, two workers ask an hour later and get another refresh token, and the person disconnects. -/
def disconnectsOnce : List Act := connectsOnce ++ .tick 3600 :: asksTwice ++ [.delete 0, .revoke 0 true]

/-- Both refresh tokens that the provider has given are gone. -/
theorem disconnect_leaves_no_grant_after_refresh : ∃ s, Run step Tidy (.start 0) s ∧ s.issued = 4 ∧
    ∀ t, s.live t = false := by
  have hsome : (runList (guarded step Tidy) (.start 0) disconnectsOnce).isSome = true := by decide
  have hrun := run_of_guarded (run_of_runList (Option.some_get hsome).symm)
  refine ⟨_, hrun, rfl, disconnect_leaves_no_grant hrun rfl rfl (fun x => ?_) fun y => ?_⟩
  · cases x <;> rfl
  · cases y <;> rfl

end JobScripts.Mail.Grants
