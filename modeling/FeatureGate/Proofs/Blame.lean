import Mathlib
import FeatureGate.Proofs.Acceptance
import FeatureGate.Proofs.Tiling

/-!
What a refused source is blamed for. A reader keeps to a language when it takes
only words of it and every fault that it tells or remembers lies on the way to a
word: the tokens in front of the blamed one begin a word. Each combinator keeps
to the language built from those of its parts, whichever of several faults it
chooses; so the error of a parser never points past the first fault.
-/

namespace FeatureGate

open scoped Computability

/-- A token that a scan can take from some text. -/
def Token.IsGenuine (t : Token) : Prop := ∃ rest, Token.Fits t.kind t.text rest

namespace Reader

/-- The language has a word of genuine tokens. -/
def HasWord (L : Language Token) : Prop := ∃ word ∈ L, ∀ t ∈ word, t.IsGenuine

theorem HasWord.mul {L M : Language Token} (h : HasWord L) (h' : HasWord M) :
    HasWord (L * M) := by
  obtain ⟨word, hword, hgenuine⟩ := h
  obtain ⟨word', hword', hgenuine'⟩ := h'
  refine ⟨word ++ word', Language.append_mem_mul hword hword', ?_⟩
  intro t ht
  rcases List.mem_append.mp ht with ht | ht
  · exact hgenuine t ht
  · exact hgenuine' t ht

theorem HasWord.mono {L M : Language Token} (h : HasWord L) (hle : L ≤ M) :
    HasWord M := by
  obtain ⟨word, hword, hgenuine⟩ := h
  exact ⟨word, hle hword, hgenuine⟩

theorem hasWord_of_nil_mem {L : Language Token} (h : [] ∈ L) : HasWord L :=
  ⟨[], h, by simp⟩

/-- The tokens of an input in front of the blamed one, or all of them when its
end is blamed, begin a word. -/
def Blamable (L : Language Token) (input : List Token)
    (found : Option Token) : Prop :=
  ∃ part after, input = part ++ after ∧ found = after.head?
    ∧ ∃ more, part ++ more ∈ L ∧ ∀ t ∈ more, t.IsGenuine

section

variable {L M : Language Token} {input taken rest : List Token}
    {found : Option Token}

theorem Blamable.mono (h : Blamable L input found) (hle : L ≤ M) :
    Blamable M input found := by
  obtain ⟨part, after, hinput, hfound, more, hword, hmore⟩ := h
  exact ⟨part, after, hinput, hfound, more, hle hword, hmore⟩

/-- What is blamed stays so when more could have followed. -/
theorem Blamable.mul_right (h : Blamable L input found) (hword : HasWord M) :
    Blamable (L * M) input found := by
  obtain ⟨part, after, hinput, hfound, more, hpart, hmore⟩ := h
  obtain ⟨word, hword, hgenuine⟩ := hword
  refine ⟨part, after, hinput, hfound, more ++ word, ?_, ?_⟩
  · rw [← List.append_assoc]
    exact Language.append_mem_mul hpart hword
  · intro t ht
    rcases List.mem_append.mp ht with ht | ht
    · exact hmore t ht
    · exact hgenuine t ht

/-- What is blamed stays so behind what was read before it. -/
theorem Blamable.mul_left (h : Blamable M rest found) (htaken : taken ∈ L) :
    Blamable (L * M) (taken ++ rest) found := by
  obtain ⟨part, after, rfl, hfound, more, hpart, hmore⟩ := h
  refine ⟨taken ++ part, after, (List.append_assoc ..).symm, hfound, more,
    ?_, hmore⟩
  rw [List.append_assoc]
  exact Language.append_mem_mul htaken hpart

/-- Where no word was begun, the first token may be blamed. -/
theorem blamable_head? (h : HasWord L) (input : List Token) :
    Blamable L input input.head? := by
  obtain ⟨word, hword, hgenuine⟩ := h
  exact ⟨[], input, rfl, rfl, word, hword, hgenuine⟩

/-- Behind a whole word, the next token may be blamed. -/
theorem blamable_behind (h : taken ∈ L) (rest : List Token) :
    Blamable L (taken ++ rest) rest.head? :=
  ⟨taken, rest, rfl, rfl, [], by simpa using h, by simp⟩

end

end Reader

open Reader

/-- The fault that a cursor remembers, if any, blames only what may be
blamed. -/
def Cursor.Remembers (P : Option Token → Prop) (c : Cursor) : Prop :=
  ∀ reason, c.deepest = some reason → P reason.found

namespace Cursor.Remembers

variable {P : Option Token → Prop} {c copy : Cursor} {reason : Fault}

theorem note (h : c.Remembers P) (hreason : P reason.found) :
    (c.note reason).Remembers P := by
  unfold Cursor.note
  split
  · rintro _ ⟨rfl⟩
    exact hreason
  · exact h

theorem learn (h : c.Remembers P) (hreason : P reason.found)
    (hcopy : copy.Remembers P) :
    (c.learn reason copy).Remembers P := by
  unfold Cursor.learn
  split
  · exact hcopy
  · split
    · rintro _ ⟨rfl⟩
      exact hreason
    · exact h

theorem accept (h : c.Remembers P) (hcopy : copy.Remembers P) :
    (c.accept copy).Remembers P := by
  unfold Cursor.accept
  split
  · exact hcopy
  · exact h

end Cursor.Remembers

/-- An answer to an input that takes a word and blames only what may be
blamed. -/
def Outcome.KeepsTo {α : Type} (L : Language Token) (input : List Token)
    (P : Option Token → Prop) : Outcome α → Prop
  | .absent => True
  | .found _ c => c.Remembers P ∧ ∃ taken ∈ L, input = taken ++ c.rest
  | .fault reason c => c.Remembers P ∧ P reason.found

namespace Outcome.KeepsTo

variable {α β : Type} {L M : Language Token} {input rest taken : List Token}
  {P : Option Token → Prop} {o : Outcome α} {c copy : Cursor}

theorem mono (h : o.KeepsTo L input P) (hle : L ≤ M) : o.KeepsTo M input P := by
  cases o with
  | absent => trivial
  | found v c =>
      obtain ⟨hc, taken, htaken, hinput⟩ := h
      exact ⟨hc, taken, hle htaken, hinput⟩
  | fault reason c => exact h

theorem mul_left (h : o.KeepsTo M rest P) (htaken : taken ∈ L) :
    o.KeepsTo (L * M) (taken ++ rest) P := by
  cases o with
  | absent => trivial
  | found v c =>
      obtain ⟨hc, taken', htaken', rfl⟩ := h
      exact ⟨hc, taken ++ taken', Language.append_mem_mul htaken htaken',
        (List.append_assoc ..).symm⟩
  | fault reason c => exact h

/-- What was found on a copy is found by the cursor that goes on there. -/
theorem accept {v : α} (h : (Outcome.found v copy).KeepsTo L input P)
    (hc : c.Remembers P) (w : β) :
    (Outcome.found w (c.accept copy)).KeepsTo L input P := by
  obtain ⟨hcopy, taken, htaken, hinput⟩ := h
  rw [← Cursor.rest_accept c copy] at hinput
  exact ⟨hc.accept hcopy, taken, htaken, hinput⟩

end Outcome.KeepsTo

namespace Reader

variable {α β : Type} {L M : Language Token}

/-- A reader that takes only words of a language, and tells and remembers only
faults on the way to one, beside those that the cursor brought along. -/
def KeepsTo (L : Language Token) (r : Reader α) : Prop :=
  ∀ (c : Cursor) (P : Option Token → Prop), c.Remembers P →
    (∀ found, Blamable L c.rest found → P found) → (r c).KeepsTo L c.rest P

theorem KeepsTo.mono {r : Reader α} (h : KeepsTo L r) (hle : L ≤ M) :
    KeepsTo M r := by
  intro c P hc hblame
  exact (h c P hc fun found hfound => hblame found (hfound.mono hle)).mono hle

theorem keepsTo_pure (v : α) : KeepsTo 1 (pure v : Reader α) :=
  fun _ _ hc _ => ⟨hc, [], rfl, rfl⟩

/-- Two readers in a row keep to the product of their languages, if the second
can be finished at all. -/
theorem KeepsTo.bind {r : Reader α} {next : α → Reader β} (h : KeepsTo L r)
    (hword : HasWord M) (h' : ∀ v, KeepsTo M (next v)) :
    KeepsTo (L * M) (r >>= next) := by
  intro c P hc hblame
  have hr := h c P hc fun found hfound => hblame found (hfound.mul_right hword)
  change (Reader.bind r next c).KeepsTo (L * M) c.rest P
  unfold Reader.bind
  generalize r c = o at hr ⊢
  cases o with
  | absent => trivial
  | fault reason c' => exact hr
  | found v c' =>
      obtain ⟨hc', taken, htaken, hrest⟩ := hr
      rw [hrest] at hblame ⊢
      have hnext :=
        h' v c' P hc' fun found hfound => hblame found (hfound.mul_left htaken)
      exact hnext.mul_left htaken

theorem KeepsTo.bind_pure {r : Reader α} (h : KeepsTo L r) (f : α → β) :
    KeepsTo L (r >>= fun v => pure (f v)) := by
  have hone : HasWord 1 := hasWord_of_nil_mem rfl
  have hbind := h.bind hone fun v => keepsTo_pure (f v)
  rwa [mul_one] at hbind

theorem KeepsTo.map {r : Reader α} (h : KeepsTo L r) (f : α → β) :
    KeepsTo L (f <$> r) :=
  h.bind_pure f

theorem KeepsTo.require {r : Reader α} (h : KeepsTo L r) (hword : HasWord L)
    (expected : String) : KeepsTo L (Reader.require expected r) := by
  intro c P hc hblame
  have hr := h c P hc hblame
  unfold Reader.require
  generalize r c = o at hr ⊢
  cases o with
  | absent => exact ⟨hc, hblame _ (blamable_head? hword c.rest)⟩
  | found v c' => exact hr
  | fault reason c' => exact hr

theorem KeepsTo.construct {r : Reader α} (h : KeepsTo L r) :
    KeepsTo L (Reader.construct r) := by
  intro c P hc hblame
  have hr := h c P hc hblame
  unfold Reader.construct
  generalize r c = o at hr ⊢
  cases o with
  | absent => trivial
  | found v c' => exact hr
  | fault reason c' => exact ⟨hr.1.note hr.2, hr.2⟩

/-- An optional part may also take no tokens. -/
theorem KeepsTo.optional {r : Reader α} (h : KeepsTo L r) :
    KeepsTo (1 + L) (Reader.optional r) := by
  intro c P hc hblame
  have hr := h.mono (le_add_left le_rfl : L ≤ 1 + L) c P hc hblame
  unfold Reader.optional
  generalize r c = o at hr ⊢
  cases o with
  | absent => exact ⟨hc, [], Or.inl rfl, rfl⟩
  | found v copy => exact hr.accept hc (some v)
  | fault reason copy =>
      have hlearned := (hc.note hr.2).learn hr.2 hr.1
      simp only
      split
      · exact ⟨hlearned.accept hr.1, hr.2⟩
      · exact ⟨hlearned, [], Or.inl rfl, by simp⟩

/-- Repetition keeps to the iterated language, whatever the limit. -/
theorem KeepsTo.repeatUpTo {r : Reader α} (h : KeepsTo L r) (limit : Nat) :
    KeepsTo L∗ (Reader.repeatUpTo r limit) := by
  induction limit with
  | zero => exact fun c _ hc _ => ⟨hc, [], Language.nil_mem_kstar L, rfl⟩
  | succ limit ih =>
      intro c P hc hblame
      have hr :=
        h c P hc fun found hfound => hblame found (hfound.mono le_kstar)
      unfold Reader.repeatUpTo
      generalize r c = o at hr ⊢
      cases o with
      | absent => exact ⟨hc, [], Language.nil_mem_kstar L, rfl⟩
      | found v copy =>
          obtain ⟨hcopy, taken, htaken, hrest⟩ := hr
          rw [← Cursor.rest_accept c copy] at hrest
          rw [hrest] at hblame ⊢
          -- A word and then words is again a list of words.
          have hmore :=
            ih (c.accept copy) P (hc.accept hcopy) fun found hfound =>
              hblame found ((hfound.mul_left htaken).mono mul_kstar_le_kstar)
          have hall := (hmore.mul_left htaken).mono mul_kstar_le_kstar
          simp only
          generalize Reader.repeatUpTo r limit (c.accept copy) = o' at hall ⊢
          cases o' with
          | absent => trivial
          | found vs c' => exact hall
          | fault reason c' => exact hall
      | fault reason copy =>
          have hlearned := (hc.note hr.2).learn hr.2 hr.1
          simp only
          split
          · exact ⟨hlearned.accept hr.1, hr.2⟩
          · exact ⟨hlearned, [], Language.nil_mem_kstar L, by simp⟩

theorem KeepsTo.many {r : Reader α} (h : KeepsTo L r) :
    KeepsTo L∗ (Reader.many r) :=
  fun c => h.repeatUpTo (c.rest.length + 1) c

/-- Of two alternatives that both go wrong, either fault may be the one that is
told. -/
theorem KeepsTo.either {first second : Reader α} (h : KeepsTo L first)
    (h' : KeepsTo M second) :
    KeepsTo (L + M) (Reader.either first second) := by
  intro c P hc hblame
  have hfirst := h.mono (le_add_right le_rfl : L ≤ L + M) c P hc hblame
  have hsecond := h'.mono (le_add_left le_rfl : M ≤ L + M)
  unfold Reader.either
  generalize first c = o at hfirst ⊢
  cases o with
  | found v copy => exact hfirst.accept hc v
  | absent =>
      have hanswer := hsecond c P hc hblame
      simp only
      generalize second c = o' at hanswer ⊢
      cases o' with
      | found v copy => exact hanswer.accept hc v
      | absent => trivial
      | fault reason copy =>
          have hlearned := hc.learn hanswer.2 hanswer.1
          simp only
          split
          · exact ⟨hlearned.accept hanswer.1, hanswer.2⟩
          · exact ⟨hlearned.note hanswer.2, hanswer.2⟩
  | fault reason copy =>
      have hlearned := hc.learn hfirst.2 hfirst.1
      have hanswer :=
        hsecond (c.learn reason copy) P hlearned (by simpa using hblame)
      rw [Cursor.rest_learn] at hanswer
      simp only
      split
      · exact ⟨hlearned.accept hfirst.1, hfirst.2⟩
      · generalize second (c.learn reason copy) = o' at hanswer ⊢
        cases o' with
        | found v copy' => exact hanswer.accept hlearned v
        | absent => exact ⟨hlearned.note hfirst.2, hfirst.2⟩
        | fault reason' copy' =>
            have hlearned' := hlearned.learn hanswer.2 hanswer.1
            have hworst : P (if copy.index ≤ copy'.index then reason'
                else reason).found := by
              split
              · exact hanswer.2
              · exact hfirst.2
            simp only
            split
            · exact ⟨hlearned'.accept hanswer.1, hanswer.2⟩
            · exact ⟨hlearned'.note hworst, hworst⟩

/-- The error of a whole run is blamed on a token that may be blamed, also when
tokens are left over and a deeper fault is told in their place. -/
theorem KeepsTo.blamable_of_run {r : Reader α} (h : KeepsTo L r)
    (hword : HasWord L) {tokens : List Token} {found : Option Token}
    {expected : Option String}
    (hrun : run r tokens = .error (found, expected)) :
    Blamable L tokens found := by
  have hr :=
    h { rest := tokens } (Blamable L tokens) (by simp [Cursor.Remembers])
      fun _ => id
  unfold run at hrun
  generalize r { rest := tokens } = o at hr hrun
  cases o with
  | absent =>
      obtain ⟨rfl, -⟩ := Prod.mk.inj (Except.error.inj hrun)
      exact blamable_head? hword tokens
  | fault reason c =>
      obtain ⟨rfl, -⟩ := Prod.mk.inj (Except.error.inj hrun)
      exact hr.2
  | found v c =>
      obtain ⟨hc, taken, htaken, hrest⟩ := hr
      have hbehind := blamable_behind htaken c.rest
      rw [← hrest] at hbehind
      simp only at hrun
      split at hrun
      · simp at hrun
      · rename_i t later hleft
        rw [hleft] at hbehind
        split at hrun
        · obtain ⟨rfl, -⟩ := Prod.mk.inj (Except.error.inj hrun)
          exact hbehind
        · split at hrun
          · rename_i reason hdeepest
            obtain ⟨rfl, -⟩ := Prod.mk.inj (Except.error.inj hrun)
            exact hc reason hdeepest
          · obtain ⟨rfl, -⟩ := Prod.mk.inj (Except.error.inj hrun)
            exact hbehind

end Reader

namespace Grammar

/-- The token lists that a rule derives. -/
def words {T : Type} (leaves : T → List Token) : Language Token :=
  Set.range leaves

/-- The tokens that pass a test, each by itself. -/
def letters (test : Token → Bool) : Language Token :=
  words fun leaf : Leaf test => [leaf.1]

section

variable {S T : Type} {f : S → List Token} {g : T → List Token}

theorem mem_words {word : List Token} : word ∈ words f ↔ ∃ s, f s = word :=
  Iff.rfl

theorem words_le (h : ∀ s, ∃ t, g t = f s) : words f ≤ words g := by
  rintro _ ⟨s, rfl⟩
  exact h s

theorem words_mul :
    words f * words g = words fun p : S × T => f p.1 ++ g p.2 := by
  ext word
  simp [mem_words, Language.mem_mul]

theorem one_add_words :
    1 + words f = words fun o : Option S => (o.map f).getD [] := by
  ext word
  rw [Language.mem_add, Language.mem_one, mem_words, mem_words]
  simp [Option.exists, eq_comm]

theorem words_kstar : (words f)∗ = words fun ss : List S => ss.flatMap f := by
  ext word
  rw [Language.mem_kstar, mem_words]
  constructor
  · rintro ⟨parts, rfl, hparts⟩
    have hrange : parts ∈ Set.range (List.map f) := by
      rw [Set.range_list_map]
      exact hparts
    obtain ⟨ss, rfl⟩ := hrange
    exact ⟨ss, List.flatMap_def ..⟩
  · rintro ⟨ss, rfl⟩
    exact ⟨ss.map f, List.flatMap_def .., by simp [mem_words]⟩

end

theorem hasWord_letters {test : Token → Bool} {t : Token} (ht : test t = true)
    (h : t.IsGenuine) : HasWord (letters test) :=
  ⟨[t], ⟨⟨t, ht⟩, rfl⟩, by simpa using h⟩

theorem hasWord_mark {a : Char} (h : Token.isPunct (byte a) = true) :
    HasWord (letters (isMark a)) :=
  hasWord_letters (t := ⟨.punct, [byte a], .start⟩) (by simp [isMark])
    ⟨[], .punct h⟩

theorem hasWord_name : HasWord (letters isName) :=
  hasWord_letters (t := ⟨.ident, [byte 'a'], .start⟩) rfl
    ⟨[], .ident (by decide) (stopsAt_nil _)⟩

theorem hasWord_string : HasWord (letters isString) :=
  hasWord_letters (t := ⟨.string, [byte '"', byte '"'], .start⟩) rfl
    ⟨[], .string (by decide)⟩

theorem hasWord_payload : HasWord (words PayloadTree.tokens) :=
  hasWord_of_nil_mem ⟨.nothing, rfl⟩

theorem hasWord_term : HasWord (words TermTree.tokens) :=
  hasWord_name.mono (words_le fun name => ⟨.node name .nothing, rfl⟩)

theorem keepsTo_token (test : Token → Bool) :
    KeepsTo (letters test) (Reader.token test) := by
  intro c P hc _
  unfold Reader.token
  split
  · trivial
  · rename_i t rest hrest
    split
    · rename_i htest
      exact ⟨hc, [t], ⟨⟨t, htest⟩, rfl⟩, hrest⟩
    · trivial

theorem keepsTo_mark (a : Char) : KeepsTo (letters (isMark a)) (mark a) :=
  keepsTo_token _

theorem keepsTo_ident : KeepsTo (letters isName) ident := keepsTo_token _

theorem keepsTo_string : KeepsTo (letters isString) string := keepsTo_token _

theorem keepsTo_equals : KeepsTo (words PayloadTree.tokens) equals := by
  have hequals : KeepsTo (letters (isMark '=') * letters isString) equals := by
    apply (keepsTo_mark '=').bind hasWord_string
    intro _
    exact (keepsTo_string.require hasWord_string _).bind_pure _
  rw [letters, letters, words_mul] at hequals
  exact hequals.mono (words_le fun ⟨sign, value⟩ => ⟨.equals sign value, rfl⟩)

section

variable {r : Reader Term} (hr : KeepsTo (words TermTree.tokens) r)
include hr

theorem keepsTo_nextTerm :
    KeepsTo (letters (isMark ',') * words TermTree.tokens) (nextTerm r) :=
  (keepsTo_mark ',').bind hasWord_term fun _ =>
    hr.require hasWord_term "TermNode"

theorem keepsTo_listItems : KeepsTo (words ListTree.tokens) (listItems r) := by
  have hend : HasWord (1 + letters (isMark ',')) :=
    hasWord_of_nil_mem (Or.inl rfl)
  have hothers : HasWord (letters (isMark ',') * words TermTree.tokens)∗ :=
    hasWord_of_nil_mem (Language.nil_mem_kstar _)
  have hitems : KeepsTo
      (words TermTree.tokens * ((letters (isMark ',') * words TermTree.tokens)∗
      * (1 + letters (isMark ',')))) (listItems r) := by
    apply hr.bind (hothers.mul hend)
    intro first
    apply (keepsTo_nextTerm hr).many.bind hend
    intro others
    exact (keepsTo_mark ',').optional.bind_pure _
  simp only [letters, words_mul, words_kstar, one_add_words] at hitems
  refine hitems.mono (words_le ?_)
  rintro ⟨first, parts, trailing⟩
  refine ⟨.terms first (.ofParts trailing parts), ?_⟩
  rw [ListTree.tokens, TailTree.tokens_ofParts]
  cases trailing <;> rfl

theorem keepsTo_list : KeepsTo (words PayloadTree.tokens) (list r) := by
  have hclosing : HasWord (letters (isMark ')')) := hasWord_mark (by decide)
  have hinside : HasWord (1 + words ListTree.tokens) :=
    hasWord_of_nil_mem (Or.inl rfl)
  have hlist : KeepsTo (letters (isMark '(') * ((1 + words ListTree.tokens)
      * letters (isMark ')'))) (list r) := by
    apply KeepsTo.construct
    apply (keepsTo_mark '(').bind (hinside.mul hclosing)
    intro _
    apply (keepsTo_listItems hr).optional.bind hclosing
    intro terms
    exact ((keepsTo_mark ')').require hclosing _).bind_pure _
  simp only [letters, one_add_words, words_mul] at hlist
  refine hlist.mono (words_le ?_)
  rintro ⟨opening, inside, closing⟩
  cases inside with
  | none => exact ⟨.parens opening .empty closing, rfl⟩
  | some inside => exact ⟨.parens opening inside closing, rfl⟩

theorem keepsTo_payload : KeepsTo (words PayloadTree.tokens) (payload r) := by
  have heither :=
    (keepsTo_equals.map Args.eq).either ((keepsTo_list hr).map Args.paren)
  rw [add_idem] at heither
  have hoptional := heither.optional
  rw [one_add_words] at hoptional
  refine hoptional.mono (words_le ?_)
  rintro (_ | p)
  · exact ⟨.nothing, rfl⟩
  · exact ⟨p, rfl⟩

end

/-- Terms keep to their rule at every depth. -/
theorem keepsTo_term (depth : Nat) :
    KeepsTo (words TermTree.tokens) (term depth) := by
  induction depth with
  | zero => exact fun _ _ _ _ => trivial
  | succ depth ih =>
      have hterm : KeepsTo (letters isName * words PayloadTree.tokens)
          (term (depth + 1)) := by
        apply KeepsTo.construct
        apply keepsTo_ident.bind hasWord_payload
        intro name
        exact (keepsTo_payload ih).bind_pure _
      rw [letters, words_mul] at hterm
      exact hterm.mono (words_le fun ⟨name, payload⟩ =>
        ⟨.node name payload, rfl⟩)

theorem keepsTo_attr (depth : Nat) :
    KeepsTo (words AttributeTree.tokens) (attr depth) := by
  have hbracket : HasWord (letters (isMark '[')) := hasWord_mark (by decide)
  have hlast : HasWord (letters (isMark ']')) := hasWord_mark (by decide)
  have hinside := hasWord_payload.mul hlast
  have hattr :
      KeepsTo (letters (isMark '#') * (letters (isMark '[') * (letters isName
      * (words PayloadTree.tokens * letters (isMark ']'))))) (attr depth) := by
    apply KeepsTo.construct
    apply (keepsTo_mark '#').bind (hbracket.mul (hasWord_name.mul hinside))
    intro first
    apply ((keepsTo_mark '[').require hbracket _).bind
      (hasWord_name.mul hinside)
    intro _
    apply (keepsTo_ident.require hasWord_name _).bind hinside
    intro name
    apply (keepsTo_payload (keepsTo_term depth)).bind hlast
    intro args
    exact ((keepsTo_mark ']').require hlast _).bind_pure _
  simp only [letters, words_mul] at hattr
  refine hattr.mono (words_le ?_)
  rintro ⟨hash, opening, name, payload, closing⟩
  exact ⟨⟨hash, opening, name, payload, closing⟩, rfl⟩

theorem keepsTo_item (depth : Nat) :
    KeepsTo (words ItemTree.tokens) (item depth) := by
  have hsemicolon : HasWord (1 + letters (isMark ';')) :=
    hasWord_of_nil_mem (Or.inl rfl)
  have hname := hasWord_name.mul hsemicolon
  have hitem :
      KeepsTo ((words AttributeTree.tokens)∗ * (letters isName * (letters isName
      * (1 + letters (isMark ';'))))) (item depth) := by
    apply KeepsTo.construct
    apply (keepsTo_attr depth).many.bind (hasWord_name.mul hname)
    intro attrs
    apply (keepsTo_ident.require hasWord_name _).bind hname
    intro kind
    apply (keepsTo_ident.require hasWord_name _).bind hsemicolon
    intro name
    exact (keepsTo_mark ';').optional.bind_pure _
  simp only [letters, words_kstar, one_add_words, words_mul] at hitem
  refine hitem.mono (words_le ?_)
  rintro ⟨attrs, kind, name, semicolon⟩
  refine ⟨⟨attrs, kind, name, semicolon⟩, ?_⟩
  cases semicolon <;> rfl

/-- A token list that a parser accepts when it is all that was scanned. -/
def Accepts {α : Type} (reader : Nat → Reader (List α))
    (tokens : List Token) : Prop :=
  ∃ values, run (reader (tokens.length + 1)) tokens = .ok values

/-- A repeated rule accepts each of its words. -/
theorem accepts_of_mem_kstar {T α : Type} {leaves : T → List Token}
    {value : T → α}
    {reader : Nat → Reader α}
    (hreads : ∀ (depth : Nat) (trees : List T),
      (trees.flatMap leaves).length ≤ depth →
      ReadsAll (reader depth) [] (trees.flatMap leaves) (trees.map value))
    {word : List Token} (h : word ∈ (words leaves)∗) :
    Accepts (fun depth => Reader.many (reader depth)) word := by
  rw [words_kstar] at h
  obtain ⟨trees, rfl⟩ := h
  have hall := hreads ((trees.flatMap leaves).length + 1) trees (Nat.le_succ _)
  obtain ⟨c, hvalues, hrest, -⟩ :=
    hall.many { rest := trees.flatMap leaves } (by simp)
  exact ⟨_, run_eq_ok_iff.mpr ⟨c, hvalues, hrest⟩⟩

/-- The places of the tokens of a scan ascend, up to the end. The induction is
on the tokens; the first place is the one where the scan began. -/
theorem isChain_places {text src : Bytes} {tokens : List Token}
    {stop : Position}
    (h : Token.scan (.behind text) src = (tokens, .finished stop)) :
    (tokens.map Token.pos ++ [stop]).head? = some (.behind text) ∧
      (tokens.map Token.pos ++ [stop]).IsChain
        fun p q => p.isBefore q = true := by
  induction tokens generalizing text src with
  | nil =>
      rcases Token.scan_nil h with ⟨-, hstop⟩ | ⟨-, hstuck⟩
      · rw [ScanEnd.finished.inj hstop]
        simp
      · simp at hstuck
  | cons t tokens ih =>
      obtain ⟨rest, -, hpos, hfits, hlater⟩ := Token.scan_cons h
      have hstop := hfits.stopsAt_isContinuation []
      rw [List.append_nil] at hstop
      rw [Position.advance_behind text hstop] at hlater
      obtain ⟨hhead, hchain⟩ := ih hlater
      rw [List.map_cons, List.cons_append, List.isChain_cons, hpos, hhead]
      refine ⟨rfl, ?_, hchain⟩
      intro p hp
      rw [← Option.some.inj hp]
      exact Position.isBefore_behind text hfits.text_ne_nil hstop

/-- Places ascend along the meaningful tokens and up to the end. -/
theorem pairwise_places {src : Bytes} {tokens : List Token} {stop : Position}
    (h : Token.scan .start src = (tokens, .finished stop)) :
    ((meaningful tokens).map Token.pos ++ [stop]).Pairwise fun p q =>
      p.isBefore q = true := by
  have : IsTrans Position fun p q => p.isBefore q = true := by
    constructor
    intro p q r hpq hqr
    rw [Position.isBefore_iff] at hpq hqr ⊢
    omega
  rw [← Position.behind_nil] at h
  apply List.Pairwise.sublist _ (isChain_places h).2.pairwise
  exact (List.filter_sublist.map Token.pos).append_right [stop]

/-- The tokens strictly before the first of the later ones are the earlier
ones. -/
theorem filter_isBefore {part later : List Token} {stop : Position}
    (h : ((part ++ later).map Token.pos ++ [stop]).Pairwise fun p q =>
      p.isBefore q = true) :
    (part ++ later).filter
      (fun t => t.pos.isBefore ((later.head?.map Token.pos).getD stop))
      = part := by
  rw [List.map_append, List.append_assoc, List.pairwise_append] at h
  obtain ⟨-, hlater, hbefore⟩ := h
  have hpart : ∀ t ∈ part,
      t.pos.isBefore ((later.head?.map Token.pos).getD stop) = true := by
    intro t ht
    apply hbefore t.pos (List.mem_map_of_mem ht)
    cases later <;> simp
  have hnone : ∀ t ∈ later,
      ¬ t.pos.isBefore ((later.head?.map Token.pos).getD stop) = true := by
    cases later with
    | nil => simp
    | cons first later =>
        intro t ht
        rw [List.head?_cons, Option.map_some, Option.getD_some,
          Position.isBefore_iff]
        rcases List.mem_cons.mp ht with rfl | ht
        · omega
        · have hfirst := (List.pairwise_cons.mp hlater).1 t.pos
            (List.mem_append_left _ (List.mem_map_of_mem ht))
          rw [Position.isBefore_iff] at hfirst
          omega
  rw [List.filter_append, List.filter_eq_self.mpr hpart,
    List.filter_eq_nil_iff.mpr hnone, List.append_nil]

/-- An error is found by the scan, or by the reader at one of the tokens. -/
theorem readSource_error {α : Type} {reader : Nat → Reader (List α)}
    {src : Bytes} {tokens : List Token} {stop : Position} {e : SyntaxError}
    (hscan : Token.scan .start src = (tokens, .finished stop))
    (h : readSource reader src = .error e) :
    ∃ found expected,
      run (reader ((meaningful tokens).length + 1)) (meaningful tokens) =
        .error (found, expected)
        ∧ e = ⟨(found.map Token.pos).getD stop,
          .unexpected found expected⟩ := by
  rw [readSource, hscan] at h
  simp only at h
  split at h
  · simp at h
  · rename_i found expected hrun
    exact ⟨found, expected, hrun, (Except.error.inj h).symm⟩

end Grammar

open Grammar

/-- An error of a parser for a scanned source. It points at the end, or at a
token that is not layout, and names what it points at. The tokens strictly
before that place can be gone on with, and the parser accepts the whole. -/
structure SyntaxError.Justified {α : Type} (reader : Nat → Reader (List α))
    (tokens : List Token) (stop : Position) (e : SyntaxError) : Prop where
  place : (e.pos = stop ∧ ∃ expected, e.fault = .unexpected none expected) ∨
    ∃ t ∈ tokens, t.isLayout = false ∧ e.pos = t.pos
      ∧ ∃ expected, e.fault = .unexpected (some t) expected
  begun : ∃ more, (∀ t ∈ more, t.IsGenuine)
    ∧ Accepts reader
      ((meaningful tokens).filter (fun t => t.pos.isBefore e.pos) ++ more)

/-- A reader that keeps to a language has every error justified by it. -/
theorem justified_of_keepsTo {α : Type} {L : Language Token}
    {reader : Nat → Reader (List α)}
    (hkeeps : ∀ depth, KeepsTo L (reader depth)) (hword : HasWord L)
    (haccepts : ∀ word ∈ L, Accepts reader word) {src : Bytes}
    {tokens : List Token} {stop : Position}
    (hscan : Token.scan .start src = (tokens, .finished stop)) {e : SyntaxError}
    (h : readSource reader src = .error e) :
    e.Justified reader tokens stop := by
  obtain ⟨found, expected, hrun, rfl⟩ := readSource_error hscan h
  obtain ⟨part, later, hsplit, rfl, more, hmember, hmore⟩ :=
    (hkeeps _).blamable_of_run hword hrun
  constructor
  · cases later with
    | nil => exact Or.inl ⟨rfl, expected, rfl⟩
    | cons t later =>
        have ht : t ∈ meaningful tokens := by
          rw [hsplit]
          simp
        obtain ⟨htoken, hlayout⟩ := List.mem_filter.mp ht
        exact Or.inr ⟨t, htoken, by simpa using hlayout, rfl, expected, rfl⟩
  · have hplaces := pairwise_places hscan
    rw [hsplit] at hplaces ⊢
    simp only [filter_isBefore hplaces]
    exact ⟨more, hmore, haccepts _ hmember⟩

/-- Errors never point past the fault: up to the place that is told, the tokens
of a refused source are those of one that the same parser accepts. -/
theorem errors_not_past_fault (src : Bytes) {tokens : List Token}
    {stop : Position}
    (hscan : Token.scan .start src = (tokens, .finished stop)) :
    (∀ e, parseAttributes src = .error e →
      e.Justified (fun depth => Reader.many (attr depth)) tokens stop) ∧
    ∀ e, parseItems src = .error e →
      e.Justified (fun depth => Reader.many (item depth)) tokens stop := by
  constructor
  · intro e h
    apply justified_of_keepsTo (fun depth => (keepsTo_attr depth).many)
      _ _ hscan h
    · exact hasWord_of_nil_mem (Language.nil_mem_kstar _)
    · exact fun word => accepts_of_mem_kstar fun depth trees hsize =>
        readsAll_attr trees hsize (stopsAt_nil _)
  · intro e h
    apply justified_of_keepsTo (fun depth => (keepsTo_item depth).many)
      _ _ hscan h
    · exact hasWord_of_nil_mem (Language.nil_mem_kstar _)
    · exact fun word => accepts_of_mem_kstar fun _ => readsAll_item

/-- No string follows the equals sign, but the payload is given up and the sign
itself is blamed. -/
theorem errors_not_past_fault_given_up :
    let src := utf8 "#[a]\n#[b(c, d = )]"
    let e : SyntaxError :=
      ⟨⟨14, 2, 10⟩,
        .unexpected (some ⟨.punct, [byte '='], ⟨14, 2, 10⟩⟩) (some "\")\"")⟩
    ∃ tokens stop, Token.scan .start src = (tokens, .finished stop) ∧
      parseAttributes src = .error e ∧
      e.Justified (fun depth => Reader.many (attr depth)) tokens stop := by
  intro src e
  have hscan : Token.scan .start src =
      ((Token.scan .start src).1, .finished ⟨18, 2, 14⟩) :=
    Prod.ext rfl (by decide +kernel)
  have hparse : parseAttributes src = .error e := by decide +kernel
  exact ⟨_, _, hscan, hparse, (errors_not_past_fault src hscan).1 e hparse⟩

end FeatureGate
