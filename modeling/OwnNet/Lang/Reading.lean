/-
  OwnNet.Lang.Reading — the parser and its grammar, production by production.

  Each function of the parser reads its production, under what may follow it: `else` for no statement, a
  dot for no right-hand side, `=` for no atom among a buffer's arguments.

  Proved: `parseModule_iff`, under any rules; `accepts_grammar`: what the source accepts and what it
  returns, where a buffer's size is left open if it stands behind an option; `parse_own_iff`: when it
  fails with its own errors only.
-/

import OwnNet.Lang.Grammar

namespace OwnNet.Lang

open Parsing (Alphabet)
open Parsing.Parser
open Parsing.Grammar (starts_this heads_token heads_this starts_token starts_sat heads_pure
  heads_when heads_number heads_star Heads Starts Before Follows sat_bind_iff bind_iff pure_iff when_iff)

abbrev Reads {α : Type} (u : Ucd) (n : Nat) (p : Parser α) (g : Parsing.Grammar Token α) (F : Tok → Prop) : Prop :=
  Parsing.Parser.Reads (fun t : Token => u.int t.text) n p g F

variable {u : Ucd} {r : Rules} {n : Nat} {F : Tok → Prop}

/-! ## Words -/

theorem reads_identAfter {k : Tok} (hk : k ≠ .eof) (hF : ∀ k', F k' → k' ≠ k) : Reads u n (identAfter k) (Rule.identAfter k) F :=
  reads_optional hk (reads_eat (by decide) fun _ => reads_pure _) hF

theorem reads_atom : Reads u n (parseAtom u) (Rule.atom u) F :=
  ((reads_number (by decide)).map _).ite
    (reads_eat (by decide) fun _ => reads_pure _) (heads_number rfl) (heads_token (by decide))

theorem reads_policyValue : Reads u n (policyValue u) (Rule.policyValue u) F :=
  ((reads_number (by decide)).map _).ite
    (reads_eat (by decide) fun _ => reads_pure _) (heads_number rfl) (heads_token (by decide))

theorem takes_word (text message : String) : Takes (fun t : Token => t.kind = .ident ∧ t.text = text) (word text message) where
  hit {t rest} ht := by
    rw [word, bind_apply, eat_cons rest ht.1]
    simp only [ht.2, if_true]
    rfl
  miss {t} rest ht := by
    by_cases hk : t.kind = .ident
    · refine ⟨message, t, ?_⟩
      rw [word, bind_apply, eat_cons rest hk]
      simp only [if_neg fun h => ht ⟨hk, h⟩]
      rfl
    · obtain ⟨m, t', hmiss⟩ := (takes_eat (k := Tok.ident) (by decide)).miss rest (show ¬ Alphabet.kind t = Tok.ident from hk)
      exact ⟨m, t', by rw [word, bind_apply, hmiss]⟩
  empty := rfl
  inside {t} ht := by
    have hk : t.kind ≠ .eof := by rw [ht.1]; decide
    exact hk

theorem looks_isWord (text : String) :
    Looks (fun ts : List Token => ts.head?.elim false fun t => decide (t.kind = .ident) && decide (t.text = text))
        (isWord text) :=
  ⟨rfl, rfl⟩

/-! ## Declarations -/

theorem reads_lifetime : Reads u n parseLifetime Rule.lifetime F :=
  reads_eat (by decide) fun _ => reads_eat (by decide) fun _ =>
    (reads_identAfter (F := (· ≠ .lt)) (by decide) fun _ hk => hk).bind (fun _ => reads_eat (by decide) fun _ => reads_pure _)
      fun _ => (heads_token (by decide))

theorem reads_setting (s : Settings) : Reads u n (policySetting u s) (Rule.setting u s) F :=
  reads_eat (by decide) fun _ => reads_eat (by decide) fun _ => (reads_policyValue (F := fun _ => True)).bind
    (fun _ => reads_eat (by decide) fun _ => reads_pure _) fun _ => heads_token trivial

theorem reads_policy : Reads u n (parsePolicy u) (Rule.policy u) F := by
  have hloop : ∀ s, Reads u n (loop (fun k => k != .rbrace) (policySetting u) s)
      (Parsing.Grammar.star (Rule.setting u) s) (· = .rbrace) :=
    fun s => reads_loop (F := fun _ => True) reads_setting (fun _ => starts_this) (fun k hk => ⟨by rw [hk]; rfl, trivial⟩)
      fun k hk => ⟨by rw [hk]; rfl, trivial⟩
  exact reads_eat (by decide) fun _ => reads_eat (by decide) fun _ => reads_eat (by decide) fun _ =>
    (hloop {}).bind (fun _ => reads_eat (by decide) fun _ => reads_pure _) fun _ => heads_this

theorem heads_atom {G : Tok → Prop} (hint : F .int) (hident : F .ident) :
    Heads (fun t : Token => u.int t.text) (Rule.atom u) G F :=
  (heads_number hint).sup (heads_token hident)

theorem reads_args : Reads u n (parseArgs u) (Rule.args u) (· = .rparen) :=
  reads_listed (F := fun _ => True) (by decide) (by decide) (fun _ => reads_atom.map _)
    (fun _ => (heads_atom (by decide) (by decide)).bind fun _ => heads_pure (G := fun _ => True) fun _ _ =>
      trivial) trivial trivial

theorem readsAt_kind (d : ResourceDecl) :
    ReadsAt (fun t : Token => u.int t.text) n
      (isWord "kind" >>= fun b => if b = true then advance >>= fun _ => (do return { d with kind := some (← eat .string).text })
        else cur >>= unexpected "expected 'acquire', 'release', 'kind' or an emit_* template")
      (Rule.word "kind" >>= fun _ => do return { d with kind := some (← Parsing.Grammar.token .string).text }) F [.ident] where
  reads := by
    have herror : Reads u n (cur >>= unexpected "expected 'acquire', 'release', 'kind' or an emit_* template")
        (⊥ : Parsing.Grammar Token ResourceDecl) F := reads_unexpected _
    have h := (looks_isWord "kind").take (P := fun t : Token => t.kind = .ident ∧ t.text = "kind") (n := n) (F := F)
      (fun t rest ht => by simpa using ht) (fun t ht => (takes_word "kind" "").inside ht)
      (fun _ _ => reads_eat (k := Tok.string) (by decide) fun val : Token => reads_pure { d with kind := some val.text }) herror
      (fun v o rest hv _ => by
        obtain ⟨t, w, rfl, ht, -⟩ := sat_bind_iff.mp hv
        simp [ht.1, ht.2])
      fun v o rest hv => hv.elim
    rwa [sup_bot_eq] at h
  starts := starts_sat fun t ht => by
    have hk : t.kind ∈ [Tok.ident] := by simp [ht.1]
    exact hk

theorem readsAt_resourceMember (d : ResourceDecl) :
    ReadsAt (fun t : Token => u.int t.text) n (resourceMember d) (Rule.rmember d) F
      [.acquire, .release, .emitType, .emitAcquire, .emitRelease, .emitBorrow, .ident] :=
  ReadsAt.cons (reads_eat (by decide) fun _ => reads_eat (by decide) fun _ => reads_pure _) starts_this
    (ReadsAt.cons (reads_eat (by decide) fun _ => reads_eat (by decide) fun _ => reads_pure _) starts_this
      (ReadsAt.anyTake (by decide) (fun _ => reads_eat (by decide) fun _ => reads_pure _) (readsAt_kind d) (by decide))
      (by decide))
    (by decide)

theorem reads_resource : Reads u n parseResource Rule.resource F := by
  have hloop : ∀ d, Reads u n (loop (fun k => k != .rbrace) resourceMember d) (Parsing.Grammar.star Rule.rmember d)
      (· = .rbrace) := fun d =>
    reads_loop (F := fun _ => True) (fun d => (readsAt_resourceMember d).reads)
      (fun d => (readsAt_resourceMember (u := u) (n := n) (F := F) d).starts) (fun k hk => ⟨by revert k; decide, trivial⟩)
      fun k hk => ⟨by rw [hk]; rfl, trivial⟩
  exact reads_eat (by decide) fun _ => reads_eat (by decide) fun _ => reads_eat (by decide) fun _ =>
    (hloop _).bind (fun _ => reads_eat (by decide) fun _ => reads_pure _) fun _ => heads_this

theorem reads_type : Reads u n parseType Rule.type F :=
  (reads_eat (by decide) fun _ => (reads_accept (F := (· ≠ .mut_)) (by decide) fun _ hk => hk).bind
      (fun _ => reads_eat (by decide) fun _ => reads_pure _) fun _ => heads_token (by decide)).ite
    (reads_eat (by decide) fun _ => reads_pure _) heads_this (heads_token (by decide))

theorem reads_ret (hF : ∀ k, F k → k ≠ .arrow) : Reads u n parseRet Rule.ret F :=
  reads_optional (by decide) (reads_type.map _) hF

theorem readsAt_eparam : ReadsAt (fun t : Token => u.int t.text) n parseEparam Rule.eparam F
    [.borrow, .borrowMut, .consume, .ident] :=
  ReadsAt.anyTake (by decide) (fun _ => reads_eat (by decide) fun _ => reads_pure _)
    ⟨reads_eat (by decide) fun _ => reads_pure _, starts_token (List.mem_singleton.mpr rfl)⟩ (by decide)

/-- What stands between parentheses, separated by commas. -/
theorem reads_list {α : Type} {p : Parser α} {g : Parsing.Grammar Token α}
    (hp : Reads u n p g (fun k => k = .rparen ∨ k = .comma))
    (hg : Starts g (· ≠ .rparen)) :
    Reads u n (listed .rparen .comma (fun as => do return as ++ [← p]) [])
      (Parsing.Grammar.listed .comma (fun as => do return as ++ [← g]) [])
      (· = .rparen) :=
  reads_listed (by decide) (by decide) (fun _ => hp.map _) (fun _ => hg.bind.heads) (.inl rfl) (.inr rfl)

theorem reads_externDecl : Reads u n parseExtern Rule.extern_ F :=
  reads_eat (by decide) fun _ => reads_eat (by decide) fun _ => reads_eat (by decide) fun _ => reads_eat (by decide) fun _ =>
    (reads_list readsAt_eparam.reads (Starts.mono (readsAt_eparam (u := u) (n := n) (F := F)).starts (by decide))).bind
      (fun _ => reads_eat (by decide) fun _ => (reads_ret (F := (· ≠ .arrow)) fun _ hk => hk).bind
        (fun _ => reads_eat (by decide) fun _ => reads_pure _) fun _ => heads_token (by decide))
      fun _ => heads_this

theorem reads_param : Reads u n parseParam Rule.param (fun k => k = .rparen ∨ k = .comma) :=
  reads_eat (by decide) fun _ => reads_eat (by decide) fun _ => (reads_type (F := fun _ => True)).bind
    (fun _ => (reads_identAfter (by decide) fun k hk => by rcases hk with rfl | rfl <;> decide).map _)
    fun _ => Heads.optional trivial (heads_pure fun _ _ => trivial)

/-! ## Conditions -/

section Conditions

variable {message : String}

theorem condFrom_lparen {d : Nat} {parts : List String} {t : Token} (rest : List Token) (ht : t.kind = .lparen) :
    condFrom message d parts (t :: rest) = condFrom message (d + 1) (parts ++ [t.text]) rest := by
  simp [condFrom, ht]

theorem condFrom_rparen {d : Nat} {parts : List String} {t : Token} (rest : List Token) (ht : t.kind = .rparen) :
    condFrom message (d + 2) parts (t :: rest) = condFrom message (d + 1) (parts ++ [t.text]) rest := by
  simp [condFrom, ht]

theorem condFrom_close {parts : List String} {t : Token} (rest : List Token) (ht : t.kind = .rparen) :
    condFrom message 1 parts (t :: rest) = .ok (parts, rest) := by
  simp [condFrom, ht]

theorem condFrom_plain {d : Nat} {parts : List String} {t : Token} (rest : List Token) (hl : t.kind ≠ .lparen)
    (hr : t.kind ≠ .rparen)
    (he : t.kind ≠ .eof) : condFrom message d parts (t :: rest) = condFrom message d (parts ++ [t.text]) rest := by
  simp [condFrom, hl, hr, he]

/-- Matched parentheses leave the depth as it was. -/
theorem condFrom_balanced {w : List Token} (hw : Rule.Balanced w) (d : Nat) (parts : List String) (rest : List Token) :
    condFrom message (d + 1) parts (w ++ rest) = condFrom message (d + 1) (parts ++ w.map Token.text) rest := by
  induction hw generalizing d parts rest with
  | nil => simp
  | plain hl hr he _ ih => rw [List.cons_append, condFrom_plain _ hl hr he, ih]; simp
  | group hl _ hr _ ihw ihv =>
    rw [List.append_assoc, List.cons_append, List.cons_append, condFrom_lparen _ hl, ihw, condFrom_rparen _ hr, ihv]
    simp

/-- Where the scan comes to an end, the tokens up to the parenthesis that closes this depth are matched. -/
theorem condFrom_ok {d : Nat} {parts : List String} {ts : List Token} {res : List String × List Token}
    (h : condFrom message (d + 1) parts ts = .ok res) : ∃ w r rest, ts = w ++ r :: rest ∧ Rule.Balanced w ∧ r.kind = .rparen := by
  induction hn : ts.length using Nat.strong_induction_on generalizing d parts ts with
  | _ n ih =>
    cases ts with
    | nil => cases h
    | cons t ts =>
      subst hn
      by_cases hl : t.kind = .lparen
      · rw [condFrom_lparen _ hl] at h
        obtain ⟨w, r, rest, rfl, hw, hr⟩ := ih _ (by simp) h rfl
        rw [condFrom_balanced hw, condFrom_rparen _ hr] at h
        obtain ⟨v, r', rest', rfl, hv, hr'⟩ := ih _ (by simp; omega) h rfl
        exact ⟨t :: w ++ r :: v, r', rest', by simp, .group hl hw hr hv, hr'⟩
      by_cases hr : t.kind = .rparen
      · exact ⟨[], t, ts, rfl, .nil, hr⟩
      by_cases he : t.kind = .eof
      · simp [condFrom, he] at h
      · rw [condFrom_plain _ hl hr he] at h
        obtain ⟨w, r, rest, rfl, hw, hr'⟩ := ih _ (by simp) h rfl
        exact ⟨t :: w, r, rest, rfl, .plain hl hr he hw, hr'⟩

theorem condFrom_safe {d : Nat} {parts : List String} {ts : List Token} (hts : Ended ts) :
    Settled (condFrom message d parts ts) := by
  induction ts generalizing d parts with
  | nil => exact absurd rfl hts.ne_nil
  | cons t ts ih =>
    rw [condFrom]
    by_cases he : t.kind = .eof
    · rw [if_pos he]
      exact trivial
    rw [if_neg he]
    have htail := hts.tail he
    split
    · exact ih htail
    split
    · split
      · exact htail
      · exact ih htail
    · exact ih htail

theorem condFrom_refused {d : Nat} {parts : List String} {ts : List Token} {t : Token} :
    condFrom message d parts ts ≠ .error (.value t) := by
  induction ts generalizing d parts with
  | nil => nofun
  | cons t' ts ih =>
    rw [condFrom]
    split
    · nofun
    split
    · exact ih
    split
    · split
      · nofun
      · exact ih
    · exact ih

theorem reads_cond : Reads u n (do return " ".intercalate (← condFrom message 1 []))
    (do
      let text ← Rule.cond
      let _ ← Parsing.Grammar.token .rparen
      return text) F where
  complete {w o rest} hw _ _ := by
    rcases bind_iff.mp hw with ⟨v, v', text, rfl, ⟨hv, htext⟩, hv'⟩ | ⟨⟨-, hw⟩, -⟩
    · obtain ⟨r, v'', rfl, hr, hv''⟩ := sat_bind_iff.mp hv'
      obtain ⟨rfl, rfl⟩ := pure_iff.mp hv''
      cases htext
      rw [List.append_assoc, bind_apply, condFrom_balanced hv, List.cons_append, condFrom_close _ hr]
      rfl
    · cases hw
  sound {ts a rest} ha := by
    obtain ⟨parts, mid, h, ha⟩ := bind_ok ha
    cases ha
    obtain ⟨w, r, rest', rfl, hw, hr⟩ := condFrom_ok h
    rw [condFrom_balanced hw, condFrom_close _ hr] at h
    cases h
    refine ⟨w ++ [r], by simp, bind_iff.mpr (.inl ⟨w, [r], _, rfl, ⟨hw, rfl⟩, ?_⟩)⟩
    exact sat_bind_iff.mpr ⟨r, [], rfl, hr, pure_iff.mpr ⟨rfl, rfl⟩⟩
  refused {ts t} hb := by
    rcases bind_error hb with h | ⟨parts, mid, -, h⟩
    · exact absurd h condFrom_refused
    · cases h
  safe {ts} hts _ := by
    have h : Settled (condFrom message 1 [] ts) := condFrom_safe hts
    rw [bind_apply]
    cases hc : condFrom message 1 [] ts with
    | ok res => rw [hc] at h; exact h
    | error e => rw [hc] at h; cases e <;> exact h

end Conditions

theorem reads_condition (message : String) : Reads u n (parseCond message) Rule.condition F :=
  reads_eat (by decide) fun _ => reads_cond

/-! ## Statements -/

theorem aheadThen_of_not_mem {ks : List Tok} {k : Tok} {t : Token} {rest : List Token} (ht : Alphabet.kind t ∉ ks) :
    aheadThen ks k (t :: rest) = false := by
  cases rest <;> simp [aheadThen, ht]

/-- A buffer's size is not taken for an option, nor an atom for a buffer. -/
theorem atom_ahead {ks : List Tok} {k : Tok} {w : List Token} {o : Option Expr} {rest : List Token} (hint : Tok.int ∉ ks)
    (hw : Rule.atom u w o) (hr : Follows (fun t : Token => u.int t.text) (· ≠ k) o rest) :
    w ++ rest ≠ [] ∧ aheadThen ks k (w ++ rest) = false := by
  rcases hw with hw | hw
  · rcases bind_iff.mp hw with ⟨v, v', a, rfl, hv, hv'⟩ | ⟨hv, rfl⟩
    · obtain ⟨rfl, rfl⟩ := pure_iff.mp hv'
      cases hv with
      | read hkind _ => exact ⟨by simp, aheadThen_of_not_mem (by rw [hkind]; exact hint)⟩
    · cases hv with
      | asked =>
        obtain ⟨t, rest', rfl, hkind, -⟩ := hr
        exact ⟨by simp, aheadThen_of_not_mem (by rw [hkind]; exact hint)⟩
  · obtain ⟨t, v, rfl, -, hv⟩ := sat_bind_iff.mp hw
    obtain ⟨rfl, rfl⟩ := pure_iff.mp hv
    obtain ⟨t', rest', rfl, ht'⟩ := hr
    exact ⟨by simp, by simpa [aheadThen] using fun _ => ht'⟩

theorem not_name {k : Tok} (hident : k ≠ .ident) (hpolicy : k ≠ .policy) : k ∉ r.names := fun hk =>
  (r.words k hk).elim hident hpolicy

theorem reads_bufferArg (s : BufferArgs) : Reads u n (bufferArg u r s) (Rule.barg u r s) (fun k => k = .rparen ∨ k = .comma) := by
  refine (looks_isAtThen r.names .eq).take (P := fun t : Token => t.kind ∈ r.names) (fun t rest ht => ?_)
    (fun t ht hs => not_name (r := r) (k := .eof) (by decide) (by decide) (by rwa [← show t.kind = .eof from hs]))
    (fun _ _ => reads_eat (by decide) fun _ => reads_atom.map _)
    (reads_atom.bind (fun a => reads_when _ (s.admits r) (s.sized a)) fun _ => heads_when fun _ hk => hk)
    (fun w o rest hw _ => ?_) fun w o rest hw hr => ?_
  · by_contra hn
    rw [aheadThen_of_not_mem hn] at ht
    cases ht
  · obtain ⟨t, v, rfl, ht, hv⟩ := sat_bind_iff.mp hw
    obtain ⟨t', v', rfl, ht', -⟩ := sat_bind_iff.mp hv
    have hkind : Alphabet.kind t ∈ r.names := ht
    simp [aheadThen, hkind, ht']
  · rcases bind_iff.mp hw with ⟨v, v', a, rfl, hv, hv'⟩ | ⟨hv, rfl⟩
    · obtain ⟨-, rfl, rfl⟩ := when_iff.mp hv'
      rw [List.append_nil]
      have hne : Before (· ≠ Tok.eq) rest := Before.mono (F := fun k : Tok => k = .rparen ∨ k = .comma) hr fun k hk => by
        rcases hk with rfl | rfl <;> decide
      exact atom_ahead (not_name (by decide) (by decide)) hv hne
    · exact atom_ahead (not_name (by decide) (by decide)) hv hr

theorem reads_bufferIntent : Reads u n (parseBufferIntent u r) (Rule.bufferintent u r) F := by
  have hlead : ∀ s, Heads (fun t : Token => u.int t.text) (Rule.barg u r s) (fun k => k = .rparen ∨ k = .comma) (· ≠ .rparen) :=
    fun s => Heads.sup
      (starts_sat fun t ht hs => not_name (r := r) (k :=
        .rparen) (by decide) (by decide) (by rwa [← show t.kind = .rparen from hs])).heads
      ((heads_atom (G := fun _ => True) (by decide) (by decide)).bind fun _ => heads_when fun _ _ => trivial)
  exact reads_eat (by decide) fun _ => reads_eat (by decide) fun _ => reads_eat (by decide) fun _ =>
      reads_eat (by decide) fun _ =>
    (reads_listed (by decide) (by decide) reads_bufferArg hlead (.inl rfl) (.inr rfl)).bind
      (fun _ => reads_eat (by decide) fun _ => reads_pure _) fun _ => heads_this

theorem reads_rhs : Reads u n (parseRhs u r) (Rule.rhs u r) (· ≠ .dot) := by
  have hlast : Reads u n (isAtThen [.ident] .dot >>= fun b => if b = true then parseBufferIntent u r else parseAtom u)
      (Rule.bufferintent u r ⊔ Rule.atom u) (· ≠ .dot) := by
    refine (looks_isAtThen [.ident] .dot).choose reads_bufferIntent reads_atom (fun w o rest hw _ => ?_) fun w o rest hw hr =>
      atom_ahead (by decide) hw hr
    obtain ⟨t, v, rfl, ht, hv⟩ := sat_bind_iff.mp hw
    obtain ⟨t', v', rfl, ht', -⟩ := sat_bind_iff.mp hv
    simp [aheadThen, ht, ht']
  have hleads : ∀ k, k ≠ .ident → k ≠ .int → Heads (fun t : Token => u.int t.text)
      (Rule.bufferintent u r ⊔ Rule.atom u) (· ≠ .dot) (· ≠ k) :=
    fun k hident hint => Heads.sup (heads_token (F := (· ≠ k)) hident.symm) (heads_atom (F := (· ≠ k)) hint.symm hident.symm)
  refine Reads.ite ?_ (Reads.ite ?_ hlast heads_this (hleads .move (by decide) (by decide))) heads_this
    ((heads_token (by decide)).sup (hleads .acquire (by decide) (by decide)))
  · exact reads_eat (by decide) fun _ => reads_eat (by decide) fun _ => reads_eat (by decide) fun _ =>
      reads_args.bind (fun _ => reads_eat (by decide) fun _ => reads_pure _) fun _ => heads_this
  · exact reads_eat (by decide) fun _ => reads_eat (by decide) fun _ => reads_pure _

theorem reads_let : Reads u n (parseLet u r) (Rule.let_ u r) F :=
  reads_eat (by decide) fun _ => reads_eat (by decide) fun _ => reads_eat (by decide) fun _ =>
    reads_rhs.bind (fun _ => reads_eat (by decide) fun _ => reads_pure _) fun _ => heads_token (by decide)

theorem reads_named {k : Tok} (hk : k ≠ .eof) (mk : String → Int → Stmt) : Reads u n (parseNamed k mk) (Rule.named k mk) F :=
  reads_eat hk fun _ => reads_eat (by decide) fun _ => reads_eat (by decide) fun _ => reads_pure _

theorem reads_call : Reads u n (parseCall u) (Rule.call u) F :=
  reads_eat (by decide) fun _ => reads_eat (by decide) fun _ => reads_args.bind
    (fun _ => reads_eat (by decide) fun _ => reads_eat (by decide) fun _ => reads_pure _) fun _ => heads_this

theorem reads_maybeIdent : Reads u n maybeIdent
    ((Parsing.Grammar.token .ident >>= fun t => pure (some t.text)) ⊔ pure none) (· ≠ .ident) :=
  (reads_eat (by decide) fun _ => reads_pure _).ite (reads_pure none) heads_this (heads_pure fun _ hk => hk)

theorem reads_return : Reads u n parseReturn Rule.return_ F :=
  reads_eat (by decide) fun _ => reads_maybeIdent.bind (fun _ => reads_eat (by decide) fun _ => reads_pure _)
    fun _ => heads_token (by decide)

theorem reads_subscribe : Reads u n parseSubscribe Rule.subscribe F :=
  reads_eat (by decide) fun _ => (takes_word _ _).bind fun _ _ => (takes_word _ _).bind fun _ _ =>
    reads_eat (by decide) fun _ => reads_eat (by decide) fun _ => reads_pure _

theorem rejectGuard_eq {α : Type} (p : Parser α) : (rejectGuard >>= fun _ => p) =
    isAt .rejected >>= fun b => if b = true then cur >>= fun t => unexpected (outOfScope t) t else p := by
  funext ts
  cases ts with
  | nil => rfl
  | cons t rest =>
    rw [bind_apply, rejectGuard, bind_apply, bind_apply, isAt_cons]
    by_cases ht : Alphabet.kind t = Tok.rejected
    · simp only [ht, decide_true, if_true]
      rfl
    · simp only [ht, decide_false, Bool.false_eq_true, if_false]
      rfl

theorem reads_guarded {α : Type} {p : Parser α} {g : Parsing.Grammar Token α} (hp : Reads u n p g F)
    (hg : Heads (fun t : Token => u.int t.text) g F (· ≠ .rejected)) : Reads u n (rejectGuard >>= fun _ => p) g F := by
  rw [rejectGuard_eq]
  exact hp.guarded (reads_unexpected _) hg

def stmtToks : List Tok := [.let_, .release, .use, .overspan, .borrow, .borrowMut, .if_, .while_, .return_, .subscribe, .ident]

section Nested

variable {p : Parser Stmt} {g : Parsing.Grammar Token Stmt}

theorem reads_block (hp : Reads u n p g (· ≠ .else_)) (hg : Starts g (· ∈ stmtToks)) :
    Reads u n (parseBlock p) (Rule.block g) F := by
  have hstep : ∀ ss : List Stmt, Reads u n (rejectGuard >>= fun _ => p >>= fun s => pure (ss ++ [s]))
    (g >>= fun s => pure (ss ++ [s]))
      (· ≠ .else_) := fun ss =>
    reads_guarded (hp.map _) (Starts.mono hg.bind (by decide)).heads
  have hloop : Reads u n (loop (fun k => k != .rbrace) (fun ss => rejectGuard >>= fun _ => p >>= fun s => pure (ss ++ [s])) [])
      (Parsing.Grammar.many g) (· = .rbrace) :=
    reads_loop hstep (fun _ => hg.bind) (by decide) fun k hk => by subst hk; decide
  exact reads_eat (by decide) fun _ => hloop.bind (fun _ => reads_eat (by decide) fun _ => reads_pure _) fun _ => heads_this

theorem reads_borrowKind : Reads u n borrowKind
    ((Parsing.Grammar.token .borrowMut >>= fun t => pure (t, BorrowKind.mut)) ⊔
      (Parsing.Grammar.token .borrow >>= fun t => pure (t, BorrowKind.shared))) F :=
  (reads_eat (by decide) fun _ => reads_pure _).ite (reads_eat (by decide) fun _ => reads_pure _) heads_this
    (heads_token (by decide))

theorem reads_borrow (hp : Reads u n p g (· ≠ .else_)) (hg : Starts g (· ∈ stmtToks)) :
    Reads u (n + 1) (parseBorrow p) (Rule.borrow g) F :=
  reads_borrowKind.bind (fun _ => reads_eat_succ (by decide) fun _ => reads_eat (by decide) fun _ =>
      reads_eat (by decide) fun _ =>
    (reads_block hp hg).map _) fun _ => heads_this

theorem reads_if (hp : Reads u n p g (· ≠ .else_)) (hg : Starts g (· ∈ stmtToks)) :
    Reads u (n + 1) (parseIf p) (Rule.if_ g) (· ≠ .else_) :=
  reads_eat_succ (by decide) fun _ => (reads_condition _).bind (fun _ => (reads_block (F := fun _ => True) hp hg).bind
      (fun _ => (reads_optional (by decide) (reads_block hp hg) fun _ hk => hk).map _)
      fun _ => Heads.optional trivial (heads_pure fun _ _ => trivial))
    fun _ => (Starts.bind (g := Rule.block g) starts_this).heads

theorem reads_while (hp : Reads u n p g (· ≠ .else_)) (hg : Starts g (· ∈ stmtToks)) :
    Reads u (n + 1) (parseWhile p) (Rule.while_ g) F :=
  reads_eat_succ (by decide) fun _ => (reads_condition _).bind
    (fun _ => (reads_block hp hg).map _)
    fun _ => (Starts.bind (g := Rule.block g) starts_this).heads

end Nested

/-- A call is told from what is no statement by the parenthesis behind its name. -/
theorem readsAt_call : ReadsAt (fun t : Token => u.int t.text) n
    (isAtThen [.ident] .lparen >>= fun b => if b = true then parseCall u else cur >>= unexpected "expected a statement")
    (Rule.call u) F [.ident] where
  reads := by
    have herror : Reads u n (cur >>= unexpected "expected a statement") (⊥ : Parsing.Grammar Token Stmt) F := reads_unexpected _
    have h := (looks_isAtThen [Tok.ident] .lparen).choose reads_call herror
      (fun w o rest hw _ => by
        obtain ⟨t, v, rfl, ht, hv⟩ := sat_bind_iff.mp hw
        obtain ⟨t', v', rfl, ht', -⟩ := sat_bind_iff.mp hv
        simp [aheadThen, ht, ht'])
      fun w o rest hw => hw.elim
    rwa [sup_bot_eq] at h
  starts := starts_token (List.mem_singleton.mpr rfl)

theorem starts_stmt : Starts (Rule.stmt u r) (· ∈ stmtToks) := by
  have hborrow : Starts (Rule.borrow (Rule.stmt u r)) (· ∈ stmtToks) :=
    Starts.bind ((starts_token (by decide)).sup (starts_token (by decide)))
  rw [← Rule.stmt_eq]
  refine Starts.sup (starts_token (by decide)) <| Starts.sup (starts_token (by decide)) <| Starts.sup
    (starts_token (by decide)) <|
    Starts.sup (starts_token (by decide)) <| Starts.sup hborrow <| Starts.sup (starts_token (by decide)) <|
    Starts.sup (starts_token (by decide)) <| Starts.sup (starts_token (by decide)) <| Starts.sup (starts_token (by decide))
      (starts_token (by decide))

/-- Fuel for every token is enough. -/
theorem reads_stmt (n : Nat) : Reads u n (parseStmt u r n) (Rule.stmt u r) (· ≠ .else_) := by
  induction n with
  | zero =>
    constructor
    · intro w o rest hw hn _
      obtain ⟨t, v, rfl, -⟩ := starts_stmt w o hw
      simp at hn
    · intro ts a rest h
      cases h
    · intro ts t h
      cases h
    · intro ts hts hn
      exact absurd (List.length_eq_zero_iff.mp (by omega)) hts.ne_nil
  | succ n ih =>
    rw [parseStmt, ← Rule.stmt_eq]
    have hne : Starts (Rule.stmtOf u r (Rule.stmt u r)) (· ≠ .rejected) :=
      Starts.mono (Rule.stmt_eq u r ▸ starts_stmt) (by decide)
    suffices h : ReadsAt (fun t : Token => u.int t.text) (n + 1) _ (Rule.stmtOf u r (Rule.stmt u r)) (· ≠ .else_) stmtToks from
      reads_guarded h.reads hne.heads
    have hborrow : Starts (Rule.borrow (Rule.stmt u r)) (· ∈ [Tok.borrow, .borrowMut]) :=
      Starts.bind ((starts_token (by decide)).sup (starts_token (by decide)))
    refine .cons reads_let starts_this (.cons (reads_named (by decide) _) starts_this
      (.cons (reads_named (by decide) _) starts_this
      (.cons (reads_named (by decide) _) starts_this (.any (reads_borrow ih starts_stmt) hborrow
        (.cons (reads_if ih starts_stmt) starts_this (.cons (reads_while ih starts_stmt) starts_this
          (.cons reads_return starts_this
          (.cons reads_subscribe starts_this readsAt_call ?_) ?_) ?_) ?_) ?_) ?_) ?_) ?_) ?_
    all_goals decide

/-! ## Modules -/

theorem reads_fn : Reads u n (parseFn u r n) (Rule.fn u r) F := by
  have hblock : ∀ {k : Tok} {G : Tok → Prop} (h : List Stmt → Parsing.Grammar Token FnItem), k ≠ .lbrace →
      Heads (fun t : Token => u.int t.text) (Rule.block (Rule.stmt u r) >>= h) G (· ≠ k) :=
    fun _ hk => (Starts.bind (g := Rule.block (Rule.stmt u r)) (starts_token hk.symm)).heads
  exact reads_eat (by decide) fun _ => reads_eat (by decide) fun _ => reads_eat (by decide) fun _ =>
    (reads_list reads_param (starts_token (by decide))).bind
      (fun _ => reads_eat (by decide) fun _ => (reads_ret (F := (· ≠ .arrow)) fun _ hk => hk).bind
        (fun _ => (reads_identAfter (F := (· ≠ .lifetime)) (by decide) fun _ hk => hk).bind
          (fun _ => (reads_block (reads_stmt n) starts_stmt).map _) fun _ => hblock _ (by decide))
        fun _ => Heads.optional (by decide) (hblock _ (by decide)))
      fun _ => heads_this

def itemToks : List Tok := [.resource, .extern_, .fn, .policy, .lifetime]

theorem readsAt_item (m : Module) : ReadsAt (fun t : Token => u.int t.text) n (moduleItem u r n m)
    (Rule.item u r m) F itemToks := by
  have hlast := (reads_lifetime (u := u) (n := n) (F := F)).map fun d => { m with lifetimes := m.lifetimes ++ [d] }
  have hend : ReadsAt (fun t : Token => u.int t.text) n
      (cur >>= unexpected "expected 'resource', 'extern', 'fn', 'policy' or 'lifetime'")
      (⊥ : Parsing.Grammar Token Module) F [] :=
    ⟨reads_unexpected _, Parsing.Grammar.starts_bot⟩
  have h := ReadsAt.cons ((reads_resource (u := u) (n := n) (F := F)).map fun d => { m with resources := m.resources ++ [d] })
    (Starts.bind starts_this) (ReadsAt.cons (reads_externDecl.map fun d =>
      { m with externs := m.externs ++ [d] }) (Starts.bind starts_this)
      (ReadsAt.cons ((reads_fn (r := r)).map fun d => { m with functions := m.functions ++ [d] }) (Starts.bind starts_this)
        (ReadsAt.cons (reads_policy.map fun d => { m with policies := m.policies ++ [d] }) (Starts.bind starts_this)
          (ReadsAt.cons hlast (Starts.bind starts_this) hend (by decide)) (by decide)) (by decide)) (by decide)) (by decide)
  rw [sup_bot_eq] at h
  exact ⟨reads_guarded h.reads (Starts.mono h.starts (by decide)).heads, h.starts⟩

/-- The parser reads a module where the end follows. -/
theorem reads_module : Reads u n (moduleFrom u r n) (Rule.module_ u r) (· = .eof) :=
  reads_eat (by decide) fun _ => reads_eat (by decide) fun _ =>
    reads_loop (F := fun _ => True) (fun m => (readsAt_item m).reads)
      (fun m => (readsAt_item (n := n) (F := fun _ => True) m).starts)
      (fun k hk => ⟨by revert k; decide, trivial⟩) fun k hk => ⟨by subst hk; decide, trivial⟩

theorem module_stops {toks rest : List Token} {m : Module} (h : moduleFrom u r n toks = .ok (m, rest)) :
    ∃ t rest', rest = t :: rest' ∧ t.kind = .eof := by
  obtain ⟨_, mid, -, h⟩ := bind_ok h
  obtain ⟨_, mid, -, h⟩ := bind_ok h
  obtain ⟨t, rest', hrest, ht⟩ := loop_stops h
  have hkind : Alphabet.kind t = Tok.eof := by simpa using ht
  exact ⟨t, rest', hrest, hkind⟩

/-- A module and the end of the tokens. -/
def Derives (u : Ucd) (r : Rules) (toks : List Token) (m : Module) : Prop :=
  ∃ body eof, toks = body ++ [eof] ∧ eof.kind = .eof ∧ (Rule.module_ u r).derives body m

theorem last_unique {body w rest : List Token} {eof t : Token} (h : body ++ [eof] = w ++ t :: rest)
    (hbody : ∀ s ∈ body, s.kind ≠ .eof) (ht : t.kind = .eof) : w = body ∧ rest = [] := by
  induction body generalizing w with
  | nil =>
    cases w with
    | nil =>
      simp only [List.nil_append, List.cons.injEq] at h
      exact ⟨rfl, h.2.symm⟩
    | cons s w => simp at h
  | cons s body ih =>
    cases w with
    | nil =>
      simp only [List.cons_append, List.nil_append, List.cons.injEq] at h
      exact absurd (h.1 ▸ ht) (hbody s List.mem_cons_self)
    | cons s' w =>
      simp only [List.cons_append, List.cons.injEq] at h
      obtain ⟨hw, hrest⟩ := ih h.2 fun s hs => hbody s (List.mem_cons_of_mem _ hs)
      exact ⟨by rw [h.1, hw], hrest⟩

/-- Under any rules the parser accepts their grammar, and its tree. -/
theorem parseModule_iff {src : String} {toks : List Token} (hlex : lex u src = .ok toks) {m : Module} :
    parseModule u r toks = .ok m ↔ Derives u r toks m := by
  obtain ⟨body, eof, rfl, heof, hbody⟩ := lex_ended hlex
  have hreads := reads_module (u := u) (r := r) (n := (body ++ [eof]).length)
  constructor
  · intro h
    unfold parseModule at h
    split at h
    next m' rest hrun =>
      cases h
      obtain ⟨w, hw, hm⟩ := hreads.sound hrun
      obtain ⟨t, rest', rfl, ht⟩ := module_stops hrun
      obtain ⟨rfl, rfl⟩ := last_unique hw hbody ht
      exact ⟨w, eof, rfl, heof, hm⟩
    · cases h
  · intro ⟨body', eof', heq, heof', hm⟩
    obtain ⟨rfl, -⟩ := last_unique heq hbody heof'
    have hrun := hreads.complete hm (Nat.le_refl _) (⟨eof, [], rfl, heof⟩ : Before (· = Tok.eof) [eof])
    rw [parseModule, hrun]
    rfl

theorem Derives.mono {r' : Rules} (h : r.Within r') {toks : List Token} {m : Module} (hm : Derives u r toks m) :
    Derives u r' toks m := by
  obtain ⟨body, eof, htoks, heof, hbody⟩ := hm
  exact ⟨body, eof, htoks, heof, Rule.module_mono h _ _ hbody⟩

/-- **The parser accepts its grammar**, where `policy` may name an option and a buffer's size stands first;
    and what it accepts is of that grammar but for where the size stands. -/
theorem accepts_grammar {u : Ucd} {src : String} {toks : List Token} (hlex : lex u src = .ok toks) (m : Module) :
    (Derives u .leadingSize toks m → parseModule u .asBuilt toks = .ok m) ∧
      (parseModule u .asBuilt toks = .ok m → Derives u .asBuilt toks m) :=
  ⟨fun h => (parseModule_iff hlex).mpr (h.mono Rules.leadingSize_within), (parseModule_iff hlex).mp⟩

namespace Example

def source : String := "module M fn f() { let b = Buffer.stack(8, policy = P); }"

def tokens : List Token :=
  [⟨.module_, "module", 1, 1⟩, ⟨.ident, "M", 1, 8⟩, ⟨.fn, "fn", 1, 10⟩, ⟨.ident, "f", 1, 13⟩, ⟨.lparen, "(", 1, 14⟩,
    ⟨.rparen, ")", 1, 15⟩, ⟨.lbrace, "\x7b", 1, 17⟩, ⟨.let_, "let", 1, 19⟩, ⟨.ident, "b", 1, 23⟩, ⟨.eq, "=", 1, 25⟩,
    ⟨.ident, "Buffer", 1, 27⟩, ⟨.dot, ".", 1, 33⟩, ⟨.ident, "stack", 1, 34⟩, ⟨.lparen, "(", 1, 39⟩, ⟨.int, "8", 1, 40⟩,
    ⟨.comma, ",", 1, 41⟩, ⟨.policy, "policy", 1, 43⟩, ⟨.eq, "=", 1, 50⟩, ⟨.ident, "P", 1, 52⟩, ⟨.rparen, ")", 1, 53⟩,
    ⟨.semi, ";", 1, 54⟩, ⟨.rbrace, "\x7d", 1, 56⟩, ⟨.eof, "", 1, 57⟩]

theorem lexed : lex .latin1 source = .ok tokens := by decide +kernel

theorem parsed : ∃ m, parseModule .latin1 .asBuilt tokens = .ok m := by
  have hok : (parseModule .latin1 .asBuilt tokens).isOk = true := by decide
  cases h : parseModule .latin1 .asBuilt tokens with
  | ok m => exact ⟨m, rfl⟩
  | error e =>
    rw [h] at hok
    cases hok

end Example

theorem accepts_grammar_policy : ∃ m, Derives .latin1 .asBuilt Example.tokens m := by
  obtain ⟨m, hm⟩ := Example.parsed
  exact ⟨m, (accepts_grammar Example.lexed m).2 hm⟩

/-- The keyword `policy` names no option in the documented grammar. -/
theorem policy_undocumented : lex .latin1 Example.source = .ok Example.tokens ∧
    (∃ m, parseModule .latin1 .asBuilt Example.tokens = .ok m) ∧ ¬ ∃ m, Derives .latin1 .documented Example.tokens m := by
  refine ⟨Example.lexed, Example.parsed, fun ⟨m, hm⟩ => ?_⟩
  have hrefused : (parseModule .latin1 .documented Example.tokens).isOk = false := by decide
  rw [(parseModule_iff Example.lexed).mpr hm] at hrefused
  cases hrefused

/-! ## Errors -/

/-- The front end's own errors. -/
def Raised.Own : Raised → Prop
  | .lex _ _ _ => True
  | .parse _ _ => True
  | _ => False

/-- A number stands where one is asked for, and `int` refuses it. -/
def AsksRefused (u : Ucd) (toks : List Token) : Prop :=
  ∃ before t after, toks = before ++ t :: after ∧ t.kind = .int ∧ u.int t.text = none ∧ (Rule.module_ u .asBuilt).asks before

theorem parseModule_own_iff {src : String} {toks : List Token} (hlex : lex u src = .ok toks) :
    (∀ e, parseModule u .asBuilt toks = .error e → e.Own) ↔ ¬ AsksRefused u toks := by
  have hreads := reads_module (u := u) (r := .asBuilt) (n := toks.length)
  have hended : Ended toks := by
    obtain ⟨body, eof, rfl, heof, -⟩ := lex_ended hlex
    exact ⟨eof, by simp, heof⟩
  have hsafe := hreads.safe hended (Nat.le_refl _)
  constructor
  · intro hown ⟨before, t, after, htoks, hkind, hint, hasks⟩
    subst htoks
    have hrun := hreads.complete hasks (Nat.le_refl _) ⟨t, after, rfl, hkind, hint⟩
    exact hown (.value t) (by rw [parseModule, hrun]; rfl)
  · intro hnot e he
    unfold parseModule at he
    split at he
    · cases he
    next f hrun =>
      cases he
      rw [hrun] at hsafe
      cases f with
      | unexpected message t => exact trivial
      | value t =>
        obtain ⟨before, after, htoks, ⟨hkind, hint⟩, hasks⟩ := hreads.refused hrun
        exact hnot ⟨before, t, after, htoks, hkind, hint, hasks⟩
      | index => exact hsafe
      | fuel => exact hsafe

/-- **Only the front end's own errors escape**, unless `int` is asked for a number it refuses. -/
theorem parse_own_iff (u : Ucd) (src : String) :
    (∀ e, parse u src = .error e → e.Own) ↔ ∀ toks, lex u src = .ok toks → ¬ AsksRefused u toks := by
  unfold parse
  cases hlex : lex u src with
  | error e =>
    refine ⟨fun _ => nofun, fun _ e' he' => ?_⟩
    cases he'
    obtain ⟨fault, line, col, rfl⟩ := lex_own hlex
    exact trivial
  | ok toks =>
    simp only [Except.ok.injEq, forall_eq']
    exact parseModule_own_iff hlex

/-- `²` is a digit to the lexer, and none to `int`. -/
theorem superscript_escapes : ¬ ∀ src e, parse .latin1 src = .error e → e.Own := by
  intro hown
  have hvalue : (match parse .latin1 "module M policy P \x7b a = ²; \x7d" with
      | .error (.value _) => true
      | _ => false) = true := by decide +kernel
  split at hvalue
  next t h => exact hown _ _ h
  · cases hvalue

end OwnNet.Lang
