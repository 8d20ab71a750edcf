import Mathlib
import FeatureGate.Attribute
import FeatureGate.Proofs.Quoting

/-!
Rendered attributes as lexemes. Where every name is an identifier and no
condition is missing, the text of an attribute is a separated list of lexemes: a
scan cuts it where the renderer joined it.
-/

namespace FeatureGate

namespace Term

mutual

/-- Every name is an identifier and no condition is missing, at any depth;
values are arbitrary. -/
def isReadable : Term → Bool
  | .ident name => Token.isIdent name
  | .keyValue key _ => Token.isIdent key
  | .call name args => Token.isIdent name && allReadable args
  | .hole => false

def allReadable : List Term → Bool
  | [] => true
  | t :: ts => isReadable t && allReadable ts

end

end Term

def Args.isReadable : Args → Bool
  | .none => true
  | .eq _ => true
  | .paren terms => Term.allReadable terms

namespace Attribute

def isReadable (a : Attribute) : Bool :=
  Token.isIdent a.name && a.args.isReadable

def unplaced (a : Attribute) : Attribute := { a with span := {} }

theorem render_unplaced (a : Attribute) : a.unplaced.render = a.render := rfl

end Attribute

namespace Lexeme

def name (text : Bytes) : Lexeme := ⟨.ident, text⟩

def mark (c : Char) : Lexeme := ⟨.punct, [byte c]⟩

def blank : Lexeme := ⟨.whitespace, [32]⟩

def quoted (value : Bytes) : Lexeme := ⟨.string, quote value⟩

def equals (value : Bytes) : List Lexeme :=
  [.blank, .mark '=', .blank, .quoted value]

def parens (inside : List Lexeme) : List Lexeme :=
  .mark '(' :: (inside ++ [.mark ')'])

/-- Text between attributes: one lexeme, or none when it is empty. -/
def gap : Bytes → List Lexeme
  | [] => []
  | b :: text => [⟨.whitespace, b :: text⟩]

theorem texts_equals (value : Bytes) :
    (equals value).flatMap Lexeme.text = utf8 " = " ++ quote value := by
  have hsign : utf8 " = " = [32] ++ [byte '='] ++ [32] := by decide
  simp [equals, blank, mark, quoted, hsign]

theorem texts_parens (inside : List Lexeme) :
    (parens inside).flatMap Lexeme.text =
      utf8 "(" ++ inside.flatMap Lexeme.text ++ utf8 ")" := by
  simp only [parens, List.flatMap_cons, List.flatMap_append, List.flatMap_nil,
    List.append_nil]
  rfl

theorem texts_gap (text : Bytes) : (gap text).flatMap Lexeme.text = text := by
  cases text with
  | nil => rfl
  | cons b text => simp [gap]

end Lexeme

namespace Term

theorem allReadable_iff {ts : List Term} :
    allReadable ts = true ↔ ∀ t ∈ ts, t.isReadable = true := by
  induction ts with
  | nil => simp [allReadable]
  | cons t ts ih => simp [allReadable, ih]

mutual

def lexemes : Term → List Lexeme
  | .ident text => [.name text]
  | .keyValue key value => .name key :: Lexeme.equals value
  | .call text args => .name text :: Lexeme.parens (listLexemes args)
  | .hole => []

def listLexemes : List Term → List Lexeme
  | [] => []
  | t :: ts => lexemes t ++ tailLexemes ts

def tailLexemes : List Term → List Lexeme
  | [] => []
  | t :: ts => .mark ',' :: .blank :: (lexemes t ++ tailLexemes ts)

end

theorem join_renderAll {ts : List Term}
    (h : ∀ t ∈ ts, t.render? = some (t.lexemes.flatMap Lexeme.text)) :
    Bytes.join (utf8 ", ") (renderAll ts) =
      (listLexemes ts).flatMap Lexeme.text := by
  induction ts with
  | nil => rfl
  | cons t ts ih =>
      have hhead := h t List.mem_cons_self
      have htail := ih fun t' ht' => h t' (List.mem_cons_of_mem t ht')
      cases ts with
      | nil => simp [renderAll, hhead, Bytes.join, listLexemes, tailLexemes]
      | cons t' ts =>
          have hnext := h t' (List.mem_cons_of_mem t List.mem_cons_self)
          simp only [renderAll, hhead, hnext, Bytes.join,
            listLexemes] at htail ⊢
          rw [List.intercalate_cons_cons, htail]
          simp only [tailLexemes, List.flatMap_append, List.flatMap_cons,
            List.append_assoc]
          rfl

theorem render?_eq_texts {t : Term} (h : t.isReadable = true) :
    t.render? = some (t.lexemes.flatMap Lexeme.text) := by
  induction t with
  | ident name => simp [render?, lexemes, Lexeme.name]
  | keyValue key value =>
      simp only [render?, lexemes, List.flatMap_cons, Lexeme.texts_equals,
        List.append_assoc]
      rfl
  | call name args ih =>
      simp only [isReadable, Bool.and_eq_true, allReadable_iff] at h
      have hargs := join_renderAll fun t ht => ih t ht (h.2 t ht)
      simp only [render?, hargs, lexemes, List.flatMap_cons,
        Lexeme.texts_parens, List.append_assoc]
      rfl
  | hole => simp [isReadable] at h

end Term

def Args.lexemes : Args → List Lexeme
  | .none => []
  | .eq value => Lexeme.equals value
  | .paren terms => Lexeme.parens (Term.listLexemes terms)

namespace Attribute

def lexemes (a : Attribute) : List Lexeme :=
  .mark '#' :: .mark '[' :: .name a.name :: (a.args.lexemes ++ [.mark ']'])

/-- A rendered attribute is the text of its lexemes. -/
theorem render_eq_texts {a : Attribute} (h : a.isReadable = true) :
    a.render = a.lexemes.flatMap Lexeme.text := by
  obtain ⟨name, args, span⟩ := a
  have hopen : utf8 "#[" = [byte '#'] ++ [byte '['] := by decide
  have hclose : utf8 ")]" = utf8 ")" ++ [byte ']'] := by decide
  have hbracket : utf8 "]" = [byte ']'] := by decide
  simp only [isReadable, Bool.and_eq_true] at h
  cases args with
  | none =>
      simp [render, lexemes, Args.lexemes, Lexeme.mark, Lexeme.name,
        hopen, hbracket]
  | eq value =>
      simp [render, lexemes, Args.lexemes, Lexeme.mark, Lexeme.name,
        Lexeme.texts_equals, hopen, hbracket]
  | paren terms =>
      have hterms := Term.join_renderAll fun t ht =>
        Term.render?_eq_texts (Term.allReadable_iff.mp h.2 t ht)
      simp [render, lexemes, Args.lexemes, Lexeme.mark, Lexeme.name,
        Lexeme.texts_parens, hterms, hopen, hclose]

end Attribute

namespace Lexeme

theorem fits_blank {rest : Bytes} (hrest : StopsAt Token.isSpace rest) :
    Token.Fits blank.kind blank.text rest := by
  apply Token.Fits.whitespace ?_ hrest
  intro b hb
  rw [List.mem_singleton.mp hb]
  decide

theorem separated_equals (value rest : Bytes) :
    Separated rest (equals value) := by
  refine ⟨fits_blank ?_, .punct (by decide), fits_blank ?_,
    Token.fits_quote value _, trivial⟩
  · exact stopsAt_cons.mpr (by decide)
  · exact stopsAt_cons.mpr (by decide)

theorem separated_parens {inside : List Lexeme} {rest : Bytes}
    (h : Separated (byte ')' :: rest) inside) :
    Separated rest (parens inside) := by
  refine ⟨.punct (by decide),
    separated_append.mpr ⟨?_, .punct (by decide), trivial⟩⟩
  simpa [mark] using h

theorem separated_gap {text rest : Bytes}
    (h : ∀ b ∈ text, Token.isSpace b = true)
    (hrest : StopsAt Token.isSpace rest) : Separated rest (gap text) := by
  cases text with
  | nil => trivial
  | cons b text => exact ⟨.whitespace h hrest, trivial⟩

end Lexeme

namespace Term

/-- What follows a term in a list never goes on with its last name. -/
theorem stopsAt_tailLexemes (ts : List Term) {rest : Bytes}
    (hrest : StopsAt Token.isIdentPart rest) :
    StopsAt Token.isIdentPart
      ((tailLexemes ts).flatMap Lexeme.text ++ rest) := by
  cases ts with
  | nil => exact hrest
  | cons t ts => exact stopsAt_cons.mpr (by decide)

theorem stopsAt_name {name : Bytes} (h : Token.isIdent name = true)
    (rest : Bytes) :
    StopsAt Token.isSpace (name ++ rest) := by
  cases name with
  | nil => simp [Token.isIdent] at h
  | cons b name =>
      simp only [Token.isIdent, Bool.and_eq_true] at h
      exact stopsAt_cons.mpr (Token.isIdentStart_ne h.1).2.1

theorem stopsAt_lexemes {t : Term} (h : t.isReadable = true) (rest : Bytes) :
    StopsAt Token.isSpace (t.lexemes.flatMap Lexeme.text ++ rest) := by
  cases t with
  | ident name =>
      rw [lexemes, List.flatMap_cons, List.append_assoc]
      exact stopsAt_name h _
  | keyValue key value =>
      rw [lexemes, List.flatMap_cons, List.append_assoc]
      exact stopsAt_name h _
  | call name args =>
      simp only [isReadable, Bool.and_eq_true] at h
      rw [lexemes, List.flatMap_cons, List.append_assoc]
      exact stopsAt_name h.1 _
  | hole => simp [isReadable] at h

theorem separated_tailLexemes {ts : List Term}
    (hreadable : ∀ t ∈ ts, t.isReadable = true)
    (h : ∀ t ∈ ts, ∀ rest,
      StopsAt Token.isIdentPart rest → Lexeme.Separated rest t.lexemes)
    {rest : Bytes} (hrest : StopsAt Token.isIdentPart rest) :
    Lexeme.Separated rest (tailLexemes ts) := by
  induction ts with
  | nil => trivial
  | cons t ts ih =>
      rw [List.forall_mem_cons] at hreadable h
      refine ⟨.punct (by decide), Lexeme.fits_blank ?_,
        Lexeme.separated_append.mpr ⟨?_, ?_⟩⟩
      · rw [List.flatMap_append, List.append_assoc]
        exact stopsAt_lexemes hreadable.1 _
      · exact h.1 _ (stopsAt_tailLexemes ts hrest)
      · exact ih hreadable.2 h.2

theorem separated_listLexemes {ts : List Term}
    (hreadable : ∀ t ∈ ts, t.isReadable = true)
    (h : ∀ t ∈ ts, ∀ rest,
      StopsAt Token.isIdentPart rest → Lexeme.Separated rest t.lexemes)
    {rest : Bytes} (hrest : StopsAt Token.isIdentPart rest) :
    Lexeme.Separated rest (listLexemes ts) := by
  cases ts with
  | nil => trivial
  | cons t ts =>
      rw [List.forall_mem_cons] at hreadable h
      refine Lexeme.separated_append.mpr
        ⟨h.1 _ (stopsAt_tailLexemes ts hrest), ?_⟩
      exact separated_tailLexemes hreadable.2 h.2 hrest

/-- The lexemes of a term stay apart, in front of anything that does not go on
with a name. -/
theorem separated_lexemes {t : Term} (h : t.isReadable = true) {rest : Bytes}
    (hrest : StopsAt Token.isIdentPart rest) :
    Lexeme.Separated rest t.lexemes := by
  induction t generalizing rest with
  | ident name => exact ⟨.ident h hrest, trivial⟩
  | keyValue key value =>
      exact ⟨.ident h (stopsAt_cons.mpr (by decide)),
        Lexeme.separated_equals value rest⟩
  | call name args ih =>
      simp only [isReadable, Bool.and_eq_true, allReadable_iff] at h
      refine ⟨.ident h.1 (stopsAt_cons.mpr (by decide)),
        Lexeme.separated_parens ?_⟩
      refine separated_listLexemes h.2 (fun t ht rest hrest =>
        ih t ht (h.2 t ht) hrest) ?_
      exact stopsAt_cons.mpr (by decide)
  | hole => simp [isReadable] at h

end Term

theorem Args.separated_lexemes {args : Args} (h : args.isReadable = true)
    {rest : Bytes} :
    Lexeme.Separated rest args.lexemes := by
  cases args with
  | none => trivial
  | eq value => exact Lexeme.separated_equals value rest
  | paren terms =>
      have hterms := Term.allReadable_iff.mp h
      refine Lexeme.separated_parens (Term.separated_listLexemes hterms ?_ ?_)
      · intro t ht rest hrest
        exact Term.separated_lexemes (hterms t ht) hrest
      · exact stopsAt_cons.mpr (by decide)

theorem Args.stopsAt_lexemes (args : Args) {rest : Bytes}
    (hrest : StopsAt Token.isIdentPart rest) :
    StopsAt Token.isIdentPart (args.lexemes.flatMap Lexeme.text ++ rest) := by
  cases args with
  | none => exact hrest
  | eq value => exact stopsAt_cons.mpr (by decide)
  | paren terms => exact stopsAt_cons.mpr (by decide)

/-- The lexemes of an attribute stay apart, whatever follows. -/
theorem Attribute.separated_lexemes {a : Attribute} (h : a.isReadable = true)
    (rest : Bytes) :
    Lexeme.Separated rest a.lexemes := by
  simp only [isReadable, Bool.and_eq_true] at h
  refine ⟨.punct (by decide), .punct (by decide), .ident h.1 ?_,
    Lexeme.separated_append.mpr
    ⟨Args.separated_lexemes h.2, .punct (by decide), trivial⟩⟩
  rw [List.flatMap_append, List.append_assoc]
  exact a.args.stopsAt_lexemes (stopsAt_cons.mpr (by decide))

end FeatureGate
