import Mathlib
import FeatureGate.Grammar.Cursor
import FeatureGate.Proofs.Scanning

/-!
What the readers do, combinator by combinator. The `_found` lemmas take a
successful reading apart; `Reads` says that a reader succeeds on given tokens
before a given rest. Neither depends on the deepest fault that a cursor
remembers, only on the tokens and on how far a fault has gone.
-/

namespace FeatureGate

namespace Cursor

@[simp] theorem rest_note (c : Cursor) (reason : Fault) :
    (c.note reason).rest = c.rest := by
  unfold note
  split <;> rfl

@[simp] theorem index_note (c : Cursor) (reason : Fault) :
    (c.note reason).index = c.index := by
  unfold note
  split <;> rfl

@[simp] theorem rest_learn (c : Cursor) (reason : Fault) (copy : Cursor) :
    (c.learn reason copy).rest = c.rest := by
  unfold learn
  split
  · rfl
  · split <;> rfl

@[simp] theorem index_learn (c : Cursor) (reason : Fault) (copy : Cursor) :
    (c.learn reason copy).index = c.index := by
  unfold learn
  split
  · rfl
  · split <;> rfl

@[simp] theorem rest_accept (c copy : Cursor) :
    (c.accept copy).rest = copy.rest := by
  unfold accept
  split <;> rfl

@[simp] theorem index_accept (c copy : Cursor) :
    (c.accept copy).index = copy.index := by
  unfold accept
  split <;> rfl

theorem not_isFinal_iff {c copy : Cursor} :
    c.isFinal copy = false ↔ copy.index ≤ c.index + lookahead := by
  simp [isFinal]

end Cursor

namespace Reader

variable {α β : Type}

theorem bind_found {r : Reader α} {next : α → Reader β} {c c'' : Cursor} {w : β}
    (h : (r >>= next) c = .found w c'') :
    ∃ v c', r c = .found v c' ∧ next v c' = .found w c'' := by
  change Reader.bind r next c = .found w c'' at h
  unfold Reader.bind at h
  split at h
  · simp at h
  · rename_i v c' hr
    exact ⟨v, c', hr, h⟩
  · simp at h

theorem pure_found {v w : α} {c c' : Cursor}
    (h : (pure v : Reader α) c = .found w c') :
    v = w ∧ c = c' := by
  change Outcome.found v c = Outcome.found w c' at h
  simpa using h

theorem map_found {f : α → β} {r : Reader α} {c c' : Cursor} {w : β}
    (h : (f <$> r) c = .found w c') : ∃ v, r c = .found v c' ∧ f v = w := by
  have hbind : (r >>= fun v => pure (f v)) c = .found w c' := h
  obtain ⟨v, c₁, hr, hpure⟩ := bind_found hbind
  obtain ⟨hw, rfl⟩ := pure_found hpure
  exact ⟨v, hr, hw⟩

theorem token_found {test : Token → Bool} {c c' : Cursor} {t : Token}
    (h : token test c = .found t c') :
    test t = true ∧ c.rest = t :: c'.rest := by
  unfold token at h
  split at h
  · simp at h
  · rename_i t' rest hrest
    split at h
    · rename_i htest
      simp only [Outcome.found.injEq] at h
      obtain ⟨rfl, rfl⟩ := h
      exact ⟨htest, hrest⟩
    · simp at h

theorem require_found {expected : String} {r : Reader α} {c c' : Cursor} {v : α}
    (h : require expected r c = .found v c') : r c = .found v c' := by
  unfold require at h
  split at h
  · simp at h
  · exact h

theorem construct_found {r : Reader α} {c c' : Cursor} {v : α}
    (h : construct r c = .found v c') : r c = .found v c' := by
  unfold construct at h
  split at h
  · simp at h
  · exact h

/-- A part found missing has left the tokens alone, whether it was absent or
given up. -/
theorem optional_found {r : Reader α} {c c' : Cursor} {o : Option α}
    (h : optional r c = .found o c') :
    (o = none ∧ c'.rest = c.rest) ∨
      ∃ v copy, o = some v ∧ r c = .found v copy ∧ c'.rest = copy.rest := by
  unfold optional at h
  split at h
  · simp only [Outcome.found.injEq] at h
    obtain ⟨rfl, rfl⟩ := h
    exact Or.inl ⟨rfl, rfl⟩
  · rename_i v copy hr
    simp only [Outcome.found.injEq] at h
    obtain ⟨rfl, rfl⟩ := h
    exact Or.inr ⟨v, copy, rfl, hr, by simp⟩
  · simp only at h
    split at h
    · simp at h
    · simp only [Outcome.found.injEq] at h
      obtain ⟨rfl, rfl⟩ := h
      exact Or.inl ⟨rfl, by simp⟩

/-- What was found was found by one of the two readers, from the same tokens. -/
theorem either_found {first second : Reader α} {c c' : Cursor} {v : α}
    (h : either first second c = .found v c') :
    ∃ c₁ copy, c₁.rest = c.rest
      ∧ (first c₁ = .found v copy ∨ second c₁ = .found v copy)
      ∧ c'.rest = copy.rest := by
  unfold either at h
  split at h
  · rename_i v' copy hfirst
    simp only [Outcome.found.injEq] at h
    obtain ⟨rfl, rfl⟩ := h
    exact ⟨c, copy, rfl, Or.inl hfirst, by simp⟩
  · split at h
    · rename_i v' copy hsecond
      simp only [Outcome.found.injEq] at h
      obtain ⟨rfl, rfl⟩ := h
      exact ⟨c, copy, rfl, Or.inr hsecond, by simp⟩
    · simp at h
    · simp only at h
      split at h <;> simp at h
  · rename_i reason copy hfirst
    simp only at h
    split at h
    · simp at h
    · split at h
      · rename_i v' copy' hsecond
        simp only [Outcome.found.injEq] at h
        obtain ⟨rfl, rfl⟩ := h
        exact ⟨_, copy', by simp, Or.inr hsecond, by simp⟩
      · simp at h
      · split at h <;> simp at h

/-- What a repetition finds, it found part by part, one behind the other. -/
theorem repeatUpTo_found {r : Reader α} {T : Type} {tokens : T → List Token}
    {value : T → α}
    (hr : ∀ {c c' : Cursor} {v : α}, r c = .found v c' →
      ∃ t, c.rest = tokens t ++ c'.rest ∧ value t = v)
    {limit : Nat} {c c' : Cursor} {vs : List α}
    (h : repeatUpTo r limit c = .found vs c') :
    ∃ ts : List T, c.rest = ts.flatMap tokens ++ c'.rest ∧
      ts.map value = vs := by
  induction limit generalizing c vs with
  | zero =>
      simp only [repeatUpTo, Outcome.found.injEq] at h
      obtain ⟨rfl, rfl⟩ := h
      exact ⟨[], rfl, rfl⟩
  | succ limit ih =>
      unfold repeatUpTo at h
      split at h
      · simp only [Outcome.found.injEq] at h
        obtain ⟨rfl, rfl⟩ := h
        exact ⟨[], rfl, rfl⟩
      · rename_i v copy hfound
        split at h
        · rename_i vs' c₁ hmore
          simp only [Outcome.found.injEq] at h
          obtain ⟨rfl, rfl⟩ := h
          obtain ⟨t, hrest, rfl⟩ := hr hfound
          obtain ⟨ts, hrests, rfl⟩ := ih hmore
          refine ⟨t :: ts, ?_, rfl⟩
          rw [Cursor.rest_accept] at hrests
          rw [hrest, hrests, List.flatMap_cons, List.append_assoc]
        · simp at h
        · simp at h
      · simp only at h
        split at h
        · simp at h
        · simp only [Outcome.found.injEq] at h
          obtain ⟨rfl, rfl⟩ := h
          exact ⟨[], by simp, rfl⟩

/-- The reader succeeds on exactly these tokens when this rest follows them. -/
def Reads (r : Reader α) (taken rest : List Token) (value : α) : Prop :=
  ∀ c : Cursor, c.rest = taken ++ rest →
    ∃ c', r c = .found value c' ∧ c'.rest = rest ∧
      c'.index = c.index + taken.length

/-- The construct does not begin here. -/
def Absent (r : Reader α) (rest : List Token) : Prop :=
  ∀ c : Cursor, c.rest = rest → r c = .absent

/-- An optional or repeated part counts as missing here: it is absent, or its
fault comes too early to be final. -/
def Skips (r : Reader α) (rest : List Token) : Prop :=
  ∀ c : Cursor, c.rest = rest →
    r c = .absent ∨
      ∃ reason copy, r c = .fault reason copy ∧
        copy.index ≤ c.index + Cursor.lookahead

theorem Absent.skips {r : Reader α} {rest : List Token} (h : Absent r rest) :
    Skips r rest :=
  fun c hc => Or.inl (h c hc)

theorem absent_token {test : Token → Bool} {rest : List Token}
    (h : StopsAt test rest) :
    Absent (token test) rest := by
  intro c hc
  unfold token
  cases rest with
  | nil => rw [hc]
  | cons t rest =>
      rw [hc]
      simp [stopsAt_cons.mp h]

theorem Absent.bind {r : Reader α} {rest : List Token} (h : Absent r rest)
    (next : α → Reader β) :
    Absent (r >>= next) rest := by
  intro c hc
  change Reader.bind r next c = .absent
  rw [Reader.bind, h c hc]

theorem Absent.map {r : Reader α} {rest : List Token} (h : Absent r rest)
    (f : α → β) :
    Absent (f <$> r) rest :=
  h.bind _

theorem Absent.construct {r : Reader α} {rest : List Token}
    (h : Absent r rest) :
    Absent (Reader.construct r) rest := by
  intro c hc
  rw [Reader.construct, h c hc]

theorem Absent.either {first second : Reader α} {rest : List Token}
    (h : Absent first rest) (h' : Absent second rest) :
    Absent (Reader.either first second) rest := by
  intro c hc
  rw [Reader.either, h c hc, h' c hc]

theorem reads_token {test : Token → Bool} {t : Token} (h : test t = true)
    (rest : List Token) :
    Reads (token test) [t] rest t := by
  intro c hc
  refine ⟨{ c with rest := rest, index := c.index + 1 }, ?_, rfl, rfl⟩
  unfold token
  rw [hc]
  simp [h]

/-- Readers in a row take their tokens in a row. -/
theorem Reads.bind {r : Reader α} {next : α → Reader β}
    {taken more rest : List Token} {v : α} {w : β}
    (h : Reads r taken (more ++ rest) v) (h' : Reads (next v) more rest w) :
    Reads (r >>= next) (taken ++ more) rest w := by
  intro c hc
  rw [List.append_assoc] at hc
  obtain ⟨c₁, hfound, hrest, hindex⟩ := h c hc
  obtain ⟨c₂, hfound', hrest', hindex'⟩ := h' c₁ hrest
  refine ⟨c₂, ?_, hrest', ?_⟩
  · change Reader.bind r next c = .found w c₂
    rw [Reader.bind, hfound]
    exact hfound'
  · rw [hindex', hindex, List.length_append, Nat.add_assoc]

theorem Reads.bind_pure {r : Reader α} {taken rest : List Token} {v : α}
    (h : Reads r taken rest v) (f : α → β) :
    Reads (r >>= fun v => pure (f v)) taken rest (f v) := by
  intro c hc
  obtain ⟨c', hfound, hrest⟩ := h c hc
  refine ⟨c', ?_, hrest⟩
  change Reader.bind r (fun v => pure (f v)) c = .found (f v) c'
  rw [Reader.bind, hfound]
  rfl

theorem Reads.map {r : Reader α} {taken rest : List Token} {v : α}
    (h : Reads r taken rest v) (f : α → β) : Reads (f <$> r) taken rest (f v) :=
  h.bind_pure f

theorem Reads.require {r : Reader α} {taken rest : List Token} {v : α}
    (h : Reads r taken rest v) (expected : String) :
    Reads (Reader.require expected r) taken rest v := by
  intro c hc
  obtain ⟨c', hfound, hrest⟩ := h c hc
  refine ⟨c', ?_, hrest⟩
  rw [Reader.require, hfound]

theorem Reads.construct {r : Reader α} {taken rest : List Token} {v : α}
    (h : Reads r taken rest v) : Reads (Reader.construct r) taken rest v := by
  intro c hc
  obtain ⟨c', hfound, hrest⟩ := h c hc
  refine ⟨c', ?_, hrest⟩
  rw [Reader.construct, hfound]

theorem Reads.optional {r : Reader α} {taken rest : List Token} {v : α}
    (h : Reads r taken rest v) :
    Reads (Reader.optional r) taken rest (some v) := by
  intro c hc
  obtain ⟨c', hfound, hrest, hindex⟩ := h c hc
  refine ⟨c.accept c', ?_, by simpa using hrest, by simpa using hindex⟩
  rw [Reader.optional, hfound]

/-- A part that is skipped takes nothing. -/
theorem Skips.optional {r : Reader α} {rest : List Token} (h : Skips r rest) :
    Reads (Reader.optional r) [] rest none := by
  intro c hc
  rcases h c hc with habsent | ⟨reason, copy, hfault, hnear⟩
  · refine ⟨c, ?_, hc, rfl⟩
    rw [Reader.optional, habsent]
  · refine ⟨(c.note reason).learn reason copy, ?_, by simpa using hc, by simp⟩
    rw [Reader.optional, hfault]
    simp [Cursor.not_isFinal_iff.mpr hnear]

/-- The reader goes wrong on the first token. -/
def FaultsAt (r : Reader α) (rest : List Token) : Prop :=
  ∀ c : Cursor, c.rest = rest → ∃ reason, r c = .fault reason c

theorem Absent.require {r : Reader α} {rest : List Token} (h : Absent r rest)
    (expected : String) : FaultsAt (Reader.require expected r) rest := by
  intro c hc
  refine ⟨⟨c.rest.head?, expected⟩, ?_⟩
  rw [Reader.require, h c hc]

theorem FaultsAt.bind {r : Reader α} {rest : List Token} (h : FaultsAt r rest)
    (next : α → Reader β) : FaultsAt (r >>= next) rest := by
  intro c hc
  obtain ⟨reason, hfault⟩ := h c hc
  refine ⟨reason, ?_⟩
  change Reader.bind r next c = .fault reason c
  rw [Reader.bind, hfault]

/-- A part that goes wrong soon enough after its beginning counts as missing. -/
theorem Reads.skips {r : Reader α} {next : α → Reader β}
    {taken rest : List Token} {v : α} (h : Reads r taken rest v)
    (hnear : taken.length ≤ Cursor.lookahead)
    (hfault : FaultsAt (next v) rest) : Skips (r >>= next) (taken ++ rest) := by
  intro c hc
  obtain ⟨c', hfound, hrest, hindex⟩ := h c hc
  obtain ⟨reason, hreason⟩ := hfault c' hrest
  refine Or.inr ⟨reason, c', ?_, ?_⟩
  · change Reader.bind r next c = .fault reason c'
    rw [Reader.bind, hfound]
    exact hreason
  · rw [hindex]
    exact Nat.add_le_add_left hnear _

theorem Skips.construct {r : Reader α} {rest : List Token} (h : Skips r rest) :
    Skips (Reader.construct r) rest := by
  intro c hc
  rcases h c hc with habsent | ⟨reason, copy, hfault, hnear⟩
  · exact Or.inl (by rw [Reader.construct, habsent])
  · refine Or.inr ⟨reason, copy.note reason, ?_, by simpa using hnear⟩
    rw [Reader.construct, hfault]

theorem Reads.either_first {first : Reader α} {taken rest : List Token} {v : α}
    (h : Reads first taken rest v) (second : Reader α) :
    Reads (Reader.either first second) taken rest v := by
  intro c hc
  obtain ⟨c', hfound, hrest, hindex⟩ := h c hc
  refine ⟨c.accept c', ?_, by simpa using hrest, by simpa using hindex⟩
  rw [Reader.either, hfound]

/-- The second reader gets its turn only where the first finds nothing. -/
theorem Reads.either_second {first second : Reader α} {taken rest : List Token}
    {v : α} (h : Reads second taken rest v)
    (hfirst : Absent first (taken ++ rest)) :
    Reads (Reader.either first second) taken rest v := by
  intro c hc
  obtain ⟨c', hfound, hrest, hindex⟩ := h c hc
  refine ⟨c.accept c', ?_, by simpa using hrest, by simpa using hindex⟩
  rw [Reader.either, hfirst c hc, hfound]

/-- Parts that are read one behind the other, up to a rest where no further part
is found. -/
inductive ReadsAll (r : Reader α) (rest : List Token) :
    List Token → List α → Prop
  | nil (h : Skips r rest) : ReadsAll r rest [] []
  | cons {taken more : List Token} {v : α} {vs : List α} (hne : taken ≠ [])
      (h : Reads r taken (more ++ rest) v) (hmore : ReadsAll r rest more vs) :
      ReadsAll r rest (taken ++ more) (v :: vs)

/-- The limit is not reached, since each repetition takes a token. -/
theorem ReadsAll.repeatUpTo {r : Reader α} {rest taken : List Token}
    {vs : List α} (h : ReadsAll r rest taken vs) {limit : Nat}
    (hlimit : taken.length < limit) :
    Reads (Reader.repeatUpTo r limit) taken rest vs := by
  induction h generalizing limit with
  | nil h =>
      intro c hc
      obtain ⟨limit, rfl⟩ :=
        Nat.exists_eq_add_one_of_ne_zero (Nat.ne_of_gt hlimit)
      rcases h c hc with habsent | ⟨reason, copy, hfault, hnear⟩
      · refine ⟨c, ?_, hc, rfl⟩
        simp only [Reader.repeatUpTo, habsent]
      · refine ⟨(c.note reason).learn reason copy, ?_,
          by simpa using hc, by simp⟩
        simp [Reader.repeatUpTo, hfault, Cursor.not_isFinal_iff.mpr hnear]
  | @cons taken more v vs hne h hmore ih =>
      intro c hc
      have hpos : 0 < taken.length := List.length_pos_iff.mpr hne
      rw [List.length_append] at hlimit
      obtain ⟨limit, rfl⟩ :=
        Nat.exists_eq_add_one_of_ne_zero (show limit ≠ 0 by omega)
      rw [List.append_assoc] at hc
      obtain ⟨copy, hfound, hrest, hindex⟩ := h c hc
      obtain ⟨c', hmore', hrest', hindex'⟩ :=
        ih (show more.length < limit by omega) (c.accept copy)
          (by simpa using hrest)
      refine ⟨c', ?_, hrest', ?_⟩
      · simp only [Reader.repeatUpTo, hfound, hmore']
      · rw [hindex', Cursor.index_accept, hindex, List.length_append,
          Nat.add_assoc]

theorem ReadsAll.many {r : Reader α} {rest taken : List Token} {vs : List α}
    (h : ReadsAll r rest taken vs) : Reads (Reader.many r) taken rest vs := by
  intro c hc
  have hlimit : taken.length < c.rest.length + 1 := by
    rw [hc, List.length_append]
    omega
  exact h.repeatUpTo hlimit c hc

/-- A whole token list is read when the reader succeeds and leaves nothing. -/
theorem run_eq_ok_iff {r : Reader α} {tokens : List Token} {v : α} :
    run r tokens = .ok v ↔ ∃ c, r { rest := tokens } = .found v c ∧
      c.rest = [] := by
  unfold run
  constructor
  · intro h
    split at h
    · simp at h
    · simp at h
    · rename_i v' c hfound
      split at h
      · rename_i hrest
        rw [Except.ok.inj h] at hfound
        exact ⟨c, hfound, hrest⟩
      · split at h
        · simp at h
        · split at h <;> simp at h
  · rintro ⟨c, hfound, hrest⟩
    rw [hfound]
    simp [hrest]

end Reader

end FeatureGate
