import Eel.Proofs.Tree.Words

/-!
Readers as relations between words and values.

A reader reads a relation when the words that it passes over and the value that
it gives are related. Where it fails at the end of the text, the words that were
there are the beginning of related ones, and what completes them is made of
zeros and parentheses. Both are kept by putting readers one behind another.
-/

namespace Eel.Tree

open Reader Word List

/-- Words that complete what is open: the number zero and parentheses. -/
def closers : List Word := [.number [0x30], .symbol .openParen, .symbol .closeParen]

def Closing (us : List Word) : Prop := ∀ w ∈ us, w ∈ closers

theorem Closing.nil : Closing [] := by simp [Closing]

theorem Closing.append {us vs : List Word} (h : Closing us) (h' : Closing vs) :
    Closing (us ++ vs) := by
  intro w hw
  rcases mem_append.mp hw with hw | hw
  · exact h w hw
  · exact h' w hw

variable {α β : Type} {A B : List Word → Prop} {P P' : List Word → α → Token.Kind → Prop}
  {Q : List Word → β → Token.Kind → Prop} {next : Unit → Reader α} {wanted : List ParseError.Wanted}
  {f : Token → Reader α} {r : Reader α} {s : Symbol} {a : α}

/-- That there are closing words and a value that are related. -/
def Closable (P : List Word → α → Token.Kind → Prop) : Prop := ∃ us a, Closing us ∧ P us a .finish

/-- That a reader, on words with property `A`, gives values that are related by
`P` to the words it passes over and to the kind of the token behind them, or
fails. It fails as incomplete only at the end of the text, and there only where
the words can be completed. -/
def Reads (A : List Word → Prop) (P : List Word → α → Token.Kind → Prop) (r : Reader α) : Prop :=
  ∀ (last : Token.Kind) (c : Cursor) (ws : List Word), c.ShowsUntil last ws → A ws →
    match r c with
    | .ok (a, c') => ∃ us vs, ws = us ++ vs ∧ c'.ShowsUntil last vs ∧ P us a (nextKind vs)
    | .error e =>
      e.incomplete = true → last = .openComment ∨ last = .finish ∧ Closable fun us => P (ws ++ us)

namespace Reads

theorem mono (h : Reads A P r) (hA : ∀ ws, B ws → A ws) (hP : ∀ us a k, P us a k → P' us a k) :
    Reads B P' r := by
  intro last c ws hc hws
  have hr := h last c ws hc (hA ws hws)
  cases hrun : r c with
  | ok result =>
    rw [hrun] at hr
    obtain ⟨us, vs, rfl, hc', ha⟩ := hr
    exact ⟨us, vs, rfl, hc', hP _ _ _ ha⟩
  | error e =>
    rw [hrun] at hr
    intro he
    refine (hr he).imp_right ?_
    rintro ⟨hlast, us, a, hus, ha⟩
    exact ⟨hlast, us, a, hus, hP _ _ _ ha⟩

theorem restrict (h : Reads A P r) (hA : ∀ ws, B ws → A ws) : Reads B P r :=
  h.mono hA fun _ _ _ ha => ha

theorem bind {next : α → Reader β} (h : Reads A P r)
    (hnext : ∀ us a k, P us a k → Reads (fun vs => A (us ++ vs) ∧ nextKind vs = k)
      (fun vs b k' => Q (us ++ vs) b k') (next a))
    (hclose : ∀ us a, P us a .finish → Closable fun vs => Q (us ++ vs)) :
    Reads A Q (r >>= next) := by
  intro last c ws hc hws
  have hr := h last c ws hc hws
  change match (r c >>= fun p => next p.1 p.2) with
    | .ok (a, c') => _
    | .error e => _
  cases hrun : r c with
  | error e =>
    rw [hrun] at hr
    intro he
    refine (hr he).imp_right ?_
    rintro ⟨hlast, us, a, hus, ha⟩
    obtain ⟨vs, b, hvs, hb⟩ := hclose _ a ha
    exact ⟨hlast, us ++ vs, b, hus.append hvs, by simpa only [append_assoc] using hb⟩
  | ok result =>
    obtain ⟨a, c₁⟩ := result
    rw [hrun] at hr
    obtain ⟨us, vs, rfl, hc₁, ha⟩ := hr
    have hrest := hnext us a _ ha last c₁ vs hc₁ ⟨hws, rfl⟩
    change match next a c₁ with
      | .ok (a, c') => _
      | .error e => _
    cases hrun₁ : next a c₁ with
    | error e =>
      rw [hrun₁] at hrest
      intro he
      simpa only [append_assoc] using hrest he
    | ok result =>
      rw [hrun₁] at hrest
      obtain ⟨us', vs', rfl, hc₂, hb⟩ := hrest
      exact ⟨us ++ us', vs', by rw [append_assoc], hc₂, hb⟩

theorem pure (h : ∀ ws, A ws → P [] a (nextKind ws)) : Reads A P (pure a) :=
  fun _ _ ws hc hws => ⟨[], ws, rfl, hc, h ws hws⟩

theorem pure_bind {next : α → Reader β} (h : Reads A Q (next a)) :
    Reads A Q (Pure.pure a >>= next) := h

theorem map {f : α → β} (h : Reads A P r) (hf : ∀ us a k, P us a k → Q us (f a) k) :
    Reads A Q (r >>= fun a => Pure.pure (f a)) := by
  refine h.bind (fun us a k ha => .pure fun vs hvs => ?_) fun us a ha => ⟨[], f a, .nil, ?_⟩
  · simpa [hvs.2] using hf us a k ha
  · simpa using hf us a _ ha

theorem kind {f : Token.Kind → Reader α}
    (h : ∀ k, Reads (fun ws => A ws ∧ nextKind ws = k) P (f k)) : Reads A P (kind >>= f) := by
  intro last c ws hc hws
  rw [kind_bind]
  exact h _ last c ws hc ⟨hws, hc.kind_eq.symm⟩

/-- The kind of the token that comes next, where it is known. -/
theorem knownKind {f : Token.Kind → Reader α} {k : Token.Kind}
    (hkind : ∀ ws, A ws → nextKind ws = k) (h : Reads A P (f k)) :
    Reads A P (Reader.kind >>= f) := by
  intro last c ws hc hws
  rw [kind_bind, hc.kind_eq, hkind ws hws]
  exact h last c ws hc hws

theorem get {f : Cursor → Reader α} (h : ∀ c, Reads A P (f c)) : Reads A P (MonadState.get >>= f) :=
  fun last c ws hc hws => h c last c ws hc hws

theorem current (h : ∀ t, Reads A P (f t)) : Reads A P (current >>= f) :=
  fun last c ws hc hws => h c.current last c ws hc hws

theorem kindOf (h : ∀ t, Reads (fun ws => A ws ∧ nextKind ws = t.kind) P (f t)) :
    Reads A P (Reader.current >>= f) :=
  fun last c ws hc hws => h c.current last c ws hc ⟨hws, hc.kind_eq.symm⟩

/-- The word that comes next is looked at, or the end. -/
theorem token (hfinish : ∀ t, t.kind = .finish → Reads (fun ws => A ws ∧ ws = []) P (f t))
    (hword : ∀ t w, t.word? = some w → Reads (fun ws => A ws ∧ ws.head? = some w) P (f t)) :
    Reads A P (Reader.current >>= f) := by
  intro last c ws hc hws
  rw [current_bind]
  cases ws with
  | nil => exact hfinish _ hc.kind_eq last c [] hc ⟨hws, rfl⟩
  | cons w ws => exact hword _ w hc.word?_eq last c _ hc ⟨hws, rfl⟩

/-- The word that comes next is passed over. -/
theorem advance (hword : ∀ ws, A ws → ws ≠ [])
    (h : ∀ w, Reads (fun ws => A (w :: ws)) (fun us a k => P (w :: us) a k) (next ())) :
    Reads A P (advance >>= next) := by
  intro last c ws hc hws
  cases ws with
  | nil => exact absurd rfl (hword [] hws)
  | cons w ws =>
    obtain ⟨c₁, hadvance, hc₁⟩ | ⟨-, e, hadvance, he⟩ := hc.advance
    · have hrest := h w last c₁ ws hc₁ hws
      rw [bind_of_ok hadvance]
      cases hrun : next () c₁ with
      | error e =>
        rw [hrun] at hrest
        exact hrest
      | ok result =>
        rw [hrun] at hrest
        obtain ⟨us, vs, rfl, hc₂, ha⟩ := hrest
        exact ⟨w :: us, vs, rfl, hc₂, ha⟩
    · rw [bind_of_error hadvance]
      exact fun hincomplete => .inl (he hincomplete)

theorem unexpected (h : A [] → Closable P) : Reads A P (unexpected wanted) := by
  intro last c ws hc hws he
  have hkind : c.current.kind = .finish ∨ c.current.kind = .openComment := by
    simpa [ParseError.atToken] using he
  rw [hc.kind_eq] at hkind
  cases ws with
  | nil => exact .inr ⟨hc.last_eq, h hws⟩
  | cons w ws => rcases w with _ | _ | _ | _ <;> simp [Word.nextKind, Word.kind] at hkind

theorem unexpected_bind {f : PUnit → Reader α} (h : A [] → Closable P) :
    Reads A P (Reader.unexpected wanted >>= f) := unexpected h

theorem throw {e : ParseError} (h : e.incomplete = false) : Reads A P (throw e) := by
  intro last c ws _ _ he
  rw [h] at he
  cases he

theorem word {w : Word} (hword : ∀ ws, A ws → ws.head? = some w)
    (h : Reads (fun ws => A (w :: ws)) (fun us a k => P (w :: us) a k) (next ())) :
    Reads A P (Reader.advance >>= next) := by
  apply advance
  · rintro ws hws rfl
    exact absurd (hword [] hws) (by simp)
  · intro w' last c ws hc hws
    obtain rfl : w' = w := Option.some.inj (hword _ hws)
    exact h last c ws hc hws

theorem symbol (hkind : ∀ ws, A ws → nextKind ws = .symbol s)
    (h : Reads (fun ws => A (.symbol s :: ws)) (fun us a k => P (.symbol s :: us) a k) (next ())) :
    Reads A P (Reader.advance >>= next) := by
  refine word (fun ws hws => ?_) h
  have hws' := hkind ws hws
  cases ws with
  | nil => cases hws'
  | cons w ws => rw [eq_symbol_of_kind hws', head?_cons]

/-- A symbol that has to stand here. -/
theorem expect
    (h : Reads (fun ws => A (.symbol s :: ws)) (fun us a k => P (.symbol s :: us) a k) (next ()))
    (hclose : A [] → Closable P) : Reads A P (expect s wanted >>= next) := by
  intro last c ws hc hws
  rw [expect_bind]
  by_cases hkind : c.current.kind = .symbol s
  · rw [if_pos hkind]
    have hsymbol : Reads (fun ws => A ws ∧ nextKind ws = .symbol s) P (Reader.advance >>= next) :=
      symbol (fun _ hws => hws.2) (h.restrict fun _ hws => hws.1)
    exact hsymbol last c ws hc ⟨hws, hc.kind_eq ▸ hkind⟩
  · rw [if_neg hkind]
    exact unexpected hclose last c ws hc hws

end Reads

end Eel.Tree
