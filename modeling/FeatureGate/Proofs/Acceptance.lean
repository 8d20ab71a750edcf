import Mathlib
import FeatureGate.Proofs.Derivation
import FeatureGate.Proofs.Reading

/-!
The readers accept exactly the grammar. Soundness: what a reader finds is the
value of a derivation of the tokens it took, also when it gave up an optional
part on the way. Completeness: on the tokens of a derivation, before anything
that may follow it, no part is given up wrongly.
-/

namespace FeatureGate

namespace Grammar

open Reader

theorem mark_found {a : Char} {c c' : Cursor} {t : Token}
    (h : mark a c = .found t c') :
    ∃ leaf : Leaf (isMark a), leaf.1 = t ∧ c.rest = leaf.1 :: c'.rest := by
  have htoken : token (isMark a) c = .found t c' := h
  obtain ⟨htest, hrest⟩ := token_found htoken
  exact ⟨⟨t, htest⟩, rfl, hrest⟩

theorem ident_found {c c' : Cursor} {t : Token} (h : ident c = .found t c') :
    ∃ leaf : Leaf isName, leaf.1 = t ∧ c.rest = leaf.1 :: c'.rest := by
  have htoken : token isName c = .found t c' := h
  obtain ⟨htest, hrest⟩ := token_found htoken
  exact ⟨⟨t, htest⟩, rfl, hrest⟩

theorem string_found {c c' : Cursor} {t : Token} (h : string c = .found t c') :
    ∃ leaf : Leaf isString, leaf.1 = t ∧ c.rest = leaf.1 :: c'.rest := by
  have htoken : token isString c = .found t c' := h
  obtain ⟨htest, hrest⟩ := token_found htoken
  exact ⟨⟨t, htest⟩, rfl, hrest⟩

theorem optional_mark_found {a : Char} {c c' : Cursor} {o : Option Token}
    (h : Reader.optional (mark a) c = .found o c') :
    ∃ leaf : Option (Leaf (isMark a)), leaf.map Subtype.val = o
      ∧ c.rest = (leaf.map Subtype.val).toList ++ c'.rest := by
  rcases optional_found h with ⟨rfl, hsame⟩ | ⟨t, copy, rfl, hmark, hsame⟩
  · exact ⟨none, rfl, hsame.symm⟩
  · obtain ⟨leaf, rfl, hrest⟩ := mark_found hmark
    refine ⟨some leaf, rfl, ?_⟩
    rw [hrest, hsame]
    rfl

/-- What a reader takes is a derivation; here of a payload `= "value"`. -/
theorem equals_found {c c' : Cursor} {v : Bytes} (h : equals c = .found v c') :
    ∃ p : PayloadTree, c.rest = p.tokens ++ c'.rest ∧ p.value = .eq v := by
  unfold equals at h
  obtain ⟨t, c₁, hsign, h⟩ := bind_found h
  obtain ⟨t', c₂, hvalue, h⟩ := bind_found h
  obtain ⟨rfl, rfl⟩ := pure_found h
  obtain ⟨sign, -, hrest⟩ := mark_found hsign
  obtain ⟨value, rfl, hrest'⟩ := string_found (require_found hvalue)
  refine ⟨.equals sign value, ?_, rfl⟩
  rw [hrest, hrest']
  rfl

/-- A term reader that finds only what the grammar derives. -/
def FindsTerms (r : Reader Term) : Prop :=
  ∀ {c c' : Cursor} {v : Term}, r c = .found v c' →
    ∃ tree : TermTree, c.rest = tree.tokens ++ c'.rest ∧ tree.value = v

/-- The rest of a list from its separated terms and its trailing comma. -/
def TailTree.ofParts (trailing : Option (Leaf (isMark ','))) :
    List (Leaf (isMark ',') × TermTree) → TailTree
  | [] =>
      match trailing with
      | none => .done
      | some mark => .comma mark
  | (mark, next) :: parts => .more mark next (ofParts trailing parts)

theorem TailTree.tokens_ofParts (trailing : Option (Leaf (isMark ',')))
    (parts : List (Leaf (isMark ',') × TermTree)) :
    (ofParts trailing parts).tokens =
      parts.flatMap (fun part => part.1.1 :: part.2.tokens)
        ++ (trailing.map Subtype.val).toList := by
  induction parts with
  | nil => cases trailing <;> rfl
  | cons part parts ih => simp [ofParts, tokens, ih]

theorem TailTree.values_ofParts (trailing : Option (Leaf (isMark ',')))
    (parts : List (Leaf (isMark ',') × TermTree)) :
    (ofParts trailing parts).values = parts.map (fun part => part.2.value) := by
  induction parts with
  | nil => cases trailing <;> rfl
  | cons part parts ih => simp [ofParts, values, ih]

theorem nextTerm_found {r : Reader Term} (hr : FindsTerms r) {c c' : Cursor}
    {v : Term} (h : nextTerm r c = .found v c') :
    ∃ part : Leaf (isMark ',') × TermTree,
      c.rest = (part.1.1 :: part.2.tokens) ++ c'.rest ∧ part.2.value = v := by
  unfold nextTerm at h
  obtain ⟨t, c₁, hmark, h⟩ := bind_found h
  obtain ⟨mark, -, hrest⟩ := mark_found hmark
  obtain ⟨tree, hrest', hvalue⟩ := hr (require_found h)
  refine ⟨(mark, tree), ?_, hvalue⟩
  rw [hrest, hrest']
  rfl

/-- The comma that may end a list is part of its derivation. -/
theorem listItems_found {r : Reader Term} (hr : FindsTerms r) {c c' : Cursor}
    {vs : List Term} (h : listItems r c = .found vs c') :
    ∃ l : ListTree, c.rest = l.tokens ++ c'.rest ∧ l.values = vs := by
  unfold listItems at h
  obtain ⟨v, c₁, hfirst, h⟩ := bind_found h
  obtain ⟨others, c₂, hothers, h⟩ := bind_found h
  obtain ⟨o, c₃, hcomma, h⟩ := bind_found h
  obtain ⟨rfl, rfl⟩ := pure_found h
  obtain ⟨first, hrest, rfl⟩ := hr hfirst
  obtain ⟨parts, hrest', rfl⟩ := repeatUpTo_found (nextTerm_found hr) hothers
  obtain ⟨trailing, -, htrailing⟩ := optional_mark_found hcomma
  refine ⟨.terms first (.ofParts trailing parts), ?_, ?_⟩
  · rw [hrest, hrest', htrailing, ListTree.tokens, TailTree.tokens_ofParts]
    simp only [List.append_assoc]
  · rw [ListTree.values, TailTree.values_ofParts]

/-- A list that was read has a derivation with both of its brackets. -/
theorem list_found {r : Reader Term} (hr : FindsTerms r) {c c' : Cursor}
    {vs : List Term} (h : list r c = .found vs c') :
    ∃ p : PayloadTree, c.rest = p.tokens ++ c'.rest ∧ p.value = .paren vs := by
  unfold list at h
  obtain ⟨t, c₁, hopening, h⟩ := bind_found (construct_found h)
  obtain ⟨o, c₂, hinside, h⟩ := bind_found h
  obtain ⟨t', c₃, hclosing, h⟩ := bind_found h
  obtain ⟨rfl, rfl⟩ := pure_found h
  obtain ⟨opening, -, hrest⟩ := mark_found hopening
  obtain ⟨closing, -, hrest'⟩ := mark_found (require_found hclosing)
  rcases optional_found hinside
    with ⟨rfl, hsame⟩ | ⟨vs, copy, rfl, hitems, hsame⟩
  · refine ⟨.parens opening .empty closing, ?_, rfl⟩
    rw [hrest, ← hsame, hrest']
    rfl
  · obtain ⟨inside, hrest'', rfl⟩ := listItems_found hr hitems
    refine ⟨.parens opening inside closing, ?_, rfl⟩
    rw [hrest, hrest'', ← hsame, hrest']
    simp [PayloadTree.tokens]

/-- A payload that is missing has a derivation too, of no tokens. -/
theorem payload_found {r : Reader Term} (hr : FindsTerms r) {c c' : Cursor}
    {o : Option Args} (h : payload r c = .found o c') :
    ∃ p : PayloadTree, c.rest = p.tokens ++ c'.rest ∧
      p.value = o.getD .none := by
  unfold payload at h
  rcases optional_found h with ⟨rfl, hsame⟩ | ⟨args, copy, rfl, heither, hsame⟩
  · exact ⟨.nothing, hsame.symm, rfl⟩
  · obtain ⟨c₁, copy', hrest, hfound, hrest'⟩ := either_found heither
    rw [hsame, hrest', ← hrest]
    rcases hfound with hfound | hfound
    · obtain ⟨v, hequals, rfl⟩ := map_found hfound
      exact equals_found hequals
    · obtain ⟨vs, hlist, rfl⟩ := map_found hfound
      exact list_found hr hlist

theorem TermTree.value_node (name : Leaf isName) (payload : PayloadTree)
    {o : Option Args} (h : payload.value = o.getD .none) :
    (TermTree.node name payload).value = termOf name.1.text o := by
  rw [TermTree.value, h]
  match o with
  | none => rfl
  | some .none => rfl
  | some (.eq _) => rfl
  | some (.paren _) => rfl

/-- Terms that were read have derivations, whatever the depth. -/
theorem term_found (depth : Nat) : FindsTerms (term depth) := by
  induction depth with
  | zero =>
      intro c c' v h
      simp [term] at h
  | succ depth ih =>
      intro c c' v h
      unfold term at h
      obtain ⟨t, c₁, hname, h⟩ := bind_found (construct_found h)
      obtain ⟨o, c₂, hpayload, h⟩ := bind_found h
      obtain ⟨rfl, rfl⟩ := pure_found h
      obtain ⟨name, rfl, hrest⟩ := ident_found hname
      obtain ⟨p, hrest', hvalue⟩ := payload_found ih hpayload
      refine ⟨.node name p, ?_, TermTree.value_node name p hvalue⟩
      rw [hrest, hrest']
      rfl

theorem attr_found {depth : Nat} {c c' : Cursor} {v : Attribute}
    (h : attr depth c = .found v c') :
    ∃ tree : AttributeTree, c.rest = tree.tokens ++ c'.rest ∧
      tree.value = v := by
  unfold attr at h
  obtain ⟨first, c₁, hhash, h⟩ := bind_found (construct_found h)
  obtain ⟨bracket, c₂, hopening, h⟩ := bind_found h
  obtain ⟨ident, c₃, hname, h⟩ := bind_found h
  obtain ⟨o, c₄, hpayload, h⟩ := bind_found h
  obtain ⟨last, c₅, hclosing, h⟩ := bind_found h
  obtain ⟨rfl, rfl⟩ := pure_found h
  obtain ⟨hash, rfl, hrest₁⟩ := mark_found hhash
  obtain ⟨opening, -, hrest₂⟩ := mark_found (require_found hopening)
  obtain ⟨name, rfl, hrest₃⟩ := ident_found (require_found hname)
  obtain ⟨p, hrest₄, hvalue⟩ := payload_found (term_found depth) hpayload
  obtain ⟨closing, rfl, hrest₅⟩ := mark_found (require_found hclosing)
  refine ⟨⟨hash, opening, name, p, closing⟩, ?_, ?_⟩
  · rw [hrest₁, hrest₂, hrest₃, hrest₄, hrest₅]
    simp [AttributeTree.tokens]
  · rw [AttributeTree.value, hvalue]

/-- An item that was read has a derivation with its value. -/
theorem item_found {depth : Nat} {c c' : Cursor} {v : Item}
    (h : item depth c = .found v c') :
    ∃ tree : ItemTree, c.rest = tree.tokens ++ c'.rest ∧ tree.value = v := by
  unfold item at h
  obtain ⟨vs, c₁, hattrs, h⟩ := bind_found (construct_found h)
  obtain ⟨t, c₂, hkind, h⟩ := bind_found h
  obtain ⟨t', c₃, hname, h⟩ := bind_found h
  obtain ⟨o, c₄, hsemicolon, h⟩ := bind_found h
  obtain ⟨rfl, rfl⟩ := pure_found h
  obtain ⟨attrs, hrest₁, rfl⟩ := repeatUpTo_found attr_found hattrs
  obtain ⟨kind, rfl, hrest₂⟩ := ident_found (require_found hkind)
  obtain ⟨name, rfl, hrest₃⟩ := ident_found (require_found hname)
  obtain ⟨semicolon, rfl, hrest₄⟩ := optional_mark_found hsemicolon
  refine ⟨⟨attrs, kind, name, semicolon⟩, ?_, ?_⟩
  · rw [hrest₁, hrest₂, hrest₃, hrest₄]
    simp [ItemTree.tokens]
  · cases attrs <;> rfl

theorem reads_mark {a : Char} (leaf : Leaf (isMark a)) (rest : List Token) :
    Reads (mark a) [leaf.1] rest leaf.1 :=
  reads_token leaf.2 rest

theorem absent_mark {a : Char} {rest : List Token}
    (h : StopsAt (isMark a) rest) :
    Absent (mark a) rest :=
  absent_token h

/-- A term reader that reads every derivation of at most `size` tokens, and
nothing where no name stands. -/
structure ReadsTerms (r : Reader Term) (size : Nat) : Prop where
  reads : ∀ (tree : TermTree) {rest : List Token}, tree.tokens.length ≤ size →
    EndsPayload rest →
    Reads r tree.tokens rest tree.value
  absent : ∀ {rest : List Token}, StopsAt isName rest → Absent r rest

/-- A comma with no term behind it is left to those who end the list. -/
theorem skips_nextTerm {r : Reader Term} {size : Nat} (hr : ReadsTerms r size)
    (mark : Leaf (isMark ',')) {rest : List Token}
    (hrest : StopsAt isName rest) :
    Skips (nextTerm r) (mark.1 :: rest) :=
  (reads_mark mark rest).skips (by simp [Cursor.lookahead])
    ((hr.absent hrest).require "TermNode")

theorem reads_nextTerm {r : Reader Term} {size : Nat} (hr : ReadsTerms r size)
    (mark : Leaf (isMark ',')) (next : TermTree) {rest : List Token}
    (hsize : next.tokens.length ≤ size) (hrest : EndsPayload rest) :
    Reads (nextTerm r) (mark.1 :: next.tokens) rest next.value := by
  have hmark := reads_mark mark (next.tokens ++ rest)
  have hnext := (hr.reads next hsize hrest).require "TermNode"
  exact hmark.bind hnext

/-- The tail of a list is read as its separated terms and then its trailing
comma: the repetition stops in front of a comma that no term follows. -/
theorem TailTree.reads {r : Reader Term} {size : Nat} (hr : ReadsTerms r size) :
    ∀ (tail : TailTree) {rest : List Token}, tail.tokens.length ≤ size →
      ClosesList rest →
      ∃ front back o, tail.tokens = front ++ back
        ∧ ReadsAll (nextTerm r) (back ++ rest) front tail.values
        ∧ Reads (Reader.optional (mark ',')) back rest o
  | .done, rest, _, hrest => by
      obtain ⟨closing, after, hclosing, rfl⟩ := hrest
      have hstop : StopsAt (isMark ',') (closing :: after) :=
        stopsAt_cons.mpr (isMark_disjoint (by decide) hclosing)
      exact ⟨[], [], none, rfl, .nil ((absent_mark hstop).bind _).skips,
        (absent_mark hstop).skips.optional⟩
  | .comma mark, rest, _, hrest => by
      obtain ⟨closing, after, hclosing, rfl⟩ := hrest
      have hstop : StopsAt isName (closing :: after) :=
        stopsAt_cons.mpr (isName_of_isMark hclosing)
      exact ⟨[], [mark.1], some mark.1, rfl,
        .nil (skips_nextTerm hr mark hstop), (reads_mark mark _).optional⟩
  | .more mark next others, rest, hsize, hrest => by
      simp only [TailTree.tokens, List.cons_append, List.length_cons,
        List.length_append] at hsize
      obtain ⟨front, back, o, htokens, hall, hcomma⟩ :=
        others.reads hr (show others.tokens.length ≤ size by omega) hrest
      have hfollows := others.endsPayload hrest
      rw [htokens, List.append_assoc] at hfollows
      refine ⟨mark.1 :: next.tokens ++ front, back, o, ?_, ?_, hcomma⟩
      · simp [TailTree.tokens, htokens]
      · exact .cons (by simp)
          (reads_nextTerm hr mark next (by omega) hfollows) hall

theorem reads_listItems {r : Reader Term} {size : Nat} (hr : ReadsTerms r size)
    (first : TermTree) (others : TailTree) {rest : List Token}
    (hsize : (ListTree.terms first others).tokens.length ≤ size)
    (hrest : ClosesList rest) :
    Reads (listItems r) (ListTree.terms first others).tokens rest
      (ListTree.terms first others).values := by
  simp only [ListTree.tokens, List.length_append] at hsize
  obtain ⟨front, back, o, htokens, hall, hcomma⟩ :=
    others.reads hr (show others.tokens.length ≤ size by omega) hrest
  have hfirst := hr.reads first (show first.tokens.length ≤ size by omega)
    (others.endsPayload hrest)
  rw [ListTree.tokens, htokens]
  rw [htokens] at hfirst
  exact hfirst.bind (hall.many.bind (hcomma.bind_pure _))

/-- The inside of a list is read, and an empty one as a missing part. -/
theorem ListTree.reads {r : Reader Term} {size : Nat} (hr : ReadsTerms r size)
    (l : ListTree) {rest : List Token} (hsize : l.tokens.length ≤ size)
    (hrest : ClosesList rest) :
    ∃ o : Option (List Term),
      Reads (Reader.optional (listItems r)) l.tokens rest o
      ∧ o.getD [] = l.values := by
  cases l with
  | empty =>
      obtain ⟨closing, after, hclosing, rfl⟩ := hrest
      have hstop : StopsAt isName (closing :: after) :=
        stopsAt_cons.mpr (isName_of_isMark hclosing)
      exact ⟨none, ((hr.absent hstop).bind _).skips.optional, rfl⟩
  | terms first others =>
      exact ⟨_, (reads_listItems hr first others hsize hrest).optional, rfl⟩

/-- A derived list is read with its brackets, whatever follows. -/
theorem reads_list {r : Reader Term} {size : Nat} (hr : ReadsTerms r size)
    (opening : Leaf (isMark '(')) (inside : ListTree)
    (closing : Leaf (isMark ')')) (rest : List Token)
    (hsize : inside.tokens.length ≤ size) :
    Reads (list r) (PayloadTree.parens opening inside closing).tokens rest
      inside.values := by
  obtain ⟨o, hinside, hvalues⟩ :=
    inside.reads hr hsize
      (show ClosesList (closing.1 :: rest) from ⟨_, _, closing.2, rfl⟩)
  have hclosing := (reads_mark closing rest).require "\")\""
  rw [← hvalues]
  refine Reads.construct
    ((reads_mark opening (inside.tokens ++ [closing.1] ++ rest)).bind ?_)
  exact hinside.bind (hclosing.bind_pure _)

theorem reads_equals (sign : Leaf (isMark '=')) (value : Leaf isString)
    (rest : List Token) :
    Reads equals [sign.1, value.1] rest (stringValue value.1) := by
  have hstring : Reads string [value.1] rest value.1 := reads_token value.2 rest
  exact (reads_mark sign _).bind
    ((hstring.require "<string>").bind_pure stringValue)

/-- A payload is read for what it is, before anything that does not go on with
it. -/
theorem PayloadTree.reads {r : Reader Term} {size : Nat}
    (hr : ReadsTerms r size) (p : PayloadTree) {rest : List Token}
    (hsize : p.tokens.length ≤ size) (hrest : EndsPayload rest) :
    ∃ o : Option Args, Reads (Grammar.payload r) p.tokens rest o ∧
      p.value = o.getD .none := by
  cases p with
  | nothing =>
      have hequals : Absent Grammar.equals rest := (absent_mark hrest.1).bind _
      have hlist : Absent (list r) rest :=
        ((absent_mark hrest.2).bind _).construct
      exact ⟨none, ((hequals.map _).either (hlist.map _)).skips.optional, rfl⟩
  | equals sign value =>
      exact ⟨_,
        (((reads_equals sign value rest).map Args.eq).either_first _).optional,
        rfl⟩
  | parens opening inside closing =>
      have hinside : inside.tokens.length ≤ size := by
        simp only [PayloadTree.tokens, List.length_append,
          List.length_cons] at hsize
        omega
      have hequals : Absent Grammar.equals
          ((PayloadTree.parens opening inside closing).tokens ++ rest) :=
        (absent_mark
          (stopsAt_cons.mpr (isMark_disjoint (by decide) opening.2))).bind _
      have hlist := reads_list hr opening inside closing rest hinside
      exact ⟨_, ((hlist.map Args.paren).either_second (hequals.map _)).optional,
        rfl⟩

/-- A derived term is read at every depth that its tokens can need. -/
theorem readsTerms_term (depth : Nat) : ReadsTerms (term depth) depth := by
  induction depth with
  | zero =>
      refine ⟨?_, fun _ _ _ => rfl⟩
      rintro ⟨name, payload⟩ rest hsize -
      simp [TermTree.tokens] at hsize
  | succ depth ih =>
      constructor
      · rintro ⟨name, payload⟩ rest hsize hrest
        obtain ⟨o, hpayload, hvalue⟩ :=
          payload.reads ih (Nat.le_of_succ_le_succ hsize) hrest
        have hname : Reads ident [name.1] (payload.tokens ++ rest) name.1 :=
          reads_token name.2 _
        rw [TermTree.value_node name payload hvalue]
        exact (hname.bind (hpayload.bind_pure (termOf name.1.text))).construct
      · intro rest hrest
        have hname : Absent ident rest := absent_token hrest
        exact (hname.bind _).construct

/-- A derived attribute is read, whatever follows. -/
theorem reads_attr {depth : Nat} (tree : AttributeTree) (rest : List Token)
    (hsize : tree.tokens.length ≤ depth) :
    Reads (attr depth) tree.tokens rest tree.value := by
  obtain ⟨hash, opening, name, payload, closing⟩ := tree
  have hinside : payload.tokens.length ≤ depth := by
    simp only [AttributeTree.tokens, List.length_cons,
      List.length_append] at hsize
    omega
  have hrest : EndsPayload (closing.1 :: rest) :=
    endsPayload_cons_of_isMark closing.2 (by decide) (by decide)
  obtain ⟨o, hpayload, hvalue⟩ :=
    payload.reads (readsTerms_term depth) hinside hrest
  have hopening :=
    reads_mark opening (name.1 :: (payload.tokens ++ [closing.1]) ++ rest)
  have hname :
      Reads ident [name.1] (payload.tokens ++ [closing.1] ++ rest) name.1 :=
    reads_token name.2 _
  have hclosing := (reads_mark closing rest).require "\"]\""
  simp only [AttributeTree.value, hvalue]
  refine Reads.construct
    ((reads_mark hash _).bind ((hopening.require _).bind ?_))
  exact (hname.require _).bind (hpayload.bind (hclosing.bind_pure _))

theorem readsAll_attr {depth : Nat} (trees : List AttributeTree)
    {rest : List Token}
    (hsize : (trees.flatMap AttributeTree.tokens).length ≤ depth)
    (hrest : StopsAt (isMark '#') rest) :
    ReadsAll (attr depth) rest (trees.flatMap AttributeTree.tokens)
      (trees.map AttributeTree.value) := by
  induction trees with
  | nil => exact .nil ((absent_mark hrest).bind _).construct.skips
  | cons tree trees ih =>
      rw [List.flatMap_cons, List.length_append] at hsize
      have htree := reads_attr tree (trees.flatMap AttributeTree.tokens ++ rest)
        (show tree.tokens.length ≤ depth by omega)
      exact .cons (by simp [AttributeTree.tokens]) htree (ih (by omega))

theorem reads_optional_mark {a : Char} (leaf : Option (Leaf (isMark a)))
    {rest : List Token} (hrest : StopsAt (isMark a) rest) :
    Reads (Reader.optional (mark a)) (leaf.map Subtype.val).toList rest
      (leaf.map Subtype.val) := by
  cases leaf with
  | none => exact (absent_mark hrest).skips.optional
  | some leaf => exact (reads_mark leaf rest).optional

theorem reads_item {depth : Nat} (tree : ItemTree) {rest : List Token}
    (hsize : tree.tokens.length ≤ depth) (hrest : StopsAt (isMark ';') rest) :
    Reads (item depth) tree.tokens rest tree.value := by
  obtain ⟨attrs, kind, name, semicolon⟩ := tree
  have hinside : (attrs.flatMap AttributeTree.tokens).length ≤ depth := by
    simp only [ItemTree.tokens, List.length_append] at hsize
    omega
  have hstop : StopsAt (isMark '#')
      (kind.1 :: name.1 :: (semicolon.map Subtype.val).toList ++ rest) :=
    stopsAt_cons.mpr (isMark_of_isName kind.2 '#')
  have hattrs := (readsAll_attr attrs hinside hstop).many
  have hkind : Reads ident [kind.1]
      (name.1 :: (semicolon.map Subtype.val).toList ++ rest) kind.1 :=
        reads_token kind.2 _
  have hname : Reads ident [name.1]
      ((semicolon.map Subtype.val).toList ++ rest) name.1 :=
    reads_token name.2 _
  have hsemicolon := reads_optional_mark semicolon hrest
  refine Reads.construct
    (hattrs.bind ((hkind.require _).bind ((hname.require _).bind ?_)))
  cases attrs with
  | nil => exact hsemicolon.bind_pure _
  | cons first others => exact hsemicolon.bind_pure _

/-- At the end no item begins: the missing kind is noticed before any token is
taken. -/
theorem skips_item_nil (depth : Nat) : Skips (item depth) [] := by
  have hattrs := (readsAll_attr [] (Nat.zero_le depth) (stopsAt_nil _)).many
  have hkind : Absent ident [] := absent_token (stopsAt_nil _)
  exact (hattrs.skips (Nat.zero_le _) ((hkind.require _).bind _)).construct

theorem readsAll_item {depth : Nat} (trees : List ItemTree)
    (hsize : (trees.flatMap ItemTree.tokens).length ≤ depth) :
    ReadsAll (item depth) [] (trees.flatMap ItemTree.tokens)
      (trees.map ItemTree.value) := by
  induction trees with
  | nil => exact .nil (skips_item_nil depth)
  | cons tree trees ih =>
      rw [List.flatMap_cons, List.length_append] at hsize
      have hrest :
          StopsAt (isMark ';') (trees.flatMap ItemTree.tokens ++ []) := by
        rw [List.append_nil]
        exact ItemTree.stopsAt_semicolon trees
      have htree :=
        reads_item tree (show tree.tokens.length ≤ depth by omega) hrest
      exact .cons tree.tokens_ne_nil htree (ih (by omega))

/-- The result of a parser follows a repeated rule: it succeeds exactly on the
token lists that the rule derives, each of them has one derivation, and its
value is the result. -/
structure Follows {T α : Type} (leaves : T → List Token) (value : T → α)
    (input : List Token)
    (result : Except SyntaxError (List α)) : Prop where
  succeeds_iff : (∃ values, result = .ok values) ↔
    ∃ trees : List T, trees.flatMap leaves = input
  unique : ∀ trees trees' : List T,
    trees.flatMap leaves = input → trees'.flatMap leaves = input →
      trees = trees'
  result_eq : ∀ trees : List T, trees.flatMap leaves = input →
    result = .ok (trees.map value)

/-- Where a scan succeeds, a source is read as its meaningful tokens are. -/
theorem readSource_eq_ok_iff {α : Type} {reader : Nat → Reader (List α)}
    {src : Bytes} {tokens : List Token} {stop : Position} {values : List α}
    (hscan : Token.scan .start src = (tokens, .finished stop)) :
    readSource reader src = .ok values ↔
      run (reader ((meaningful tokens).length + 1)) (meaningful tokens) =
        .ok values := by
  rw [readSource, hscan]
  dsimp only
  split
  · rename_i values' hrun
    rw [hrun]
    simp
  · rename_i found expected hrun
    rw [hrun]
    simp

theorem scan_of_readSource {α : Type} {reader : Nat → Reader (List α)}
    {src : Bytes} {values : List α} (h : readSource reader src = .ok values) :
    ∃ tokens stop, Token.scan .start src = (tokens, .finished stop) := by
  unfold readSource at h
  split at h
  · simp at h
  · rename_i tokens stop hscan
    exact ⟨tokens, stop, hscan⟩

/-- A reader that finds only derivations and reads all of them follows its
rule. -/
theorem follows_of_reader {T α : Type} {leaves : T → List Token} {value : T → α}
    {reader : Nat → Reader α} {src : Bytes} {tokens : List Token}
    {stop : Position}
    (hscan : Token.scan .start src = (tokens, .finished stop))
    (hfound : ∀ {depth : Nat} {c c' : Cursor} {v : α},
      reader depth c = .found v c' →
      ∃ tree, c.rest = leaves tree ++ c'.rest ∧ value tree = v)
    (hreads : ∀ (depth : Nat) (trees : List T),
      (trees.flatMap leaves).length ≤ depth →
      ReadsAll (reader depth) [] (trees.flatMap leaves) (trees.map value))
    (hunique : ∀ {trees trees' : List T},
      trees.flatMap leaves = trees'.flatMap leaves → trees = trees') :
    Follows leaves value (meaningful tokens)
      (readSource (fun depth => Reader.many (reader depth)) src) := by
  have hresult : ∀ trees : List T, trees.flatMap leaves = meaningful tokens →
      readSource (fun depth => Reader.many (reader depth)) src =
        .ok (trees.map value) := by
    intro trees htrees
    rw [readSource_eq_ok_iff hscan, run_eq_ok_iff, ← htrees]
    have hall :=
      hreads ((trees.flatMap leaves).length + 1) trees (Nat.le_succ _)
    obtain ⟨c, hvalues, hrest, -⟩ :=
      hall.many { rest := trees.flatMap leaves } (by simp)
    exact ⟨c, hvalues, hrest⟩
  refine ⟨⟨?_, ?_⟩, ?_, hresult⟩
  · rintro ⟨values, hvalues⟩
    rw [readSource_eq_ok_iff hscan, run_eq_ok_iff] at hvalues
    obtain ⟨c, hmany, hrest⟩ := hvalues
    obtain ⟨trees, htrees, -⟩ := repeatUpTo_found hfound hmany
    rw [hrest, List.append_nil] at htrees
    exact ⟨trees, htrees.symm⟩
  · rintro ⟨trees, htrees⟩
    exact ⟨_, hresult trees htrees⟩
  · intro trees trees' htrees htrees'
    exact hunique (htrees.trans htrees'.symm)

theorem follows_parseAttributes {src : Bytes} {tokens : List Token}
    {stop : Position}
    (hscan : Token.scan .start src = (tokens, .finished stop)) :
    Follows AttributeTree.tokens AttributeTree.value (meaningful tokens)
      (parseAttributes src) := by
  refine follows_of_reader hscan attr_found ?_ ?_
  · intro depth trees hsize
    exact readsAll_attr trees hsize (stopsAt_nil _)
  · intro trees trees' h
    exact (AttributeTree.flatMap_inj (stopsAt_nil _) (stopsAt_nil _)
      (by rw [h])).1

theorem follows_parseItems {src : Bytes} {tokens : List Token} {stop : Position}
    (hscan : Token.scan .start src = (tokens, .finished stop)) :
    Follows ItemTree.tokens ItemTree.value (meaningful tokens)
      (parseItems src) :=
  follows_of_reader hscan item_found
    (fun _ => readsAll_item) ItemTree.flatMap_inj

/-- A parser of whole sources for a repeated rule: what it accepts was scanned
to the end, and then it follows the rule. -/
structure Parses {T α : Type} (leaves : T → List Token) (value : T → α)
    (parse : Bytes → Except SyntaxError (List α)) : Prop where
  scans : ∀ {src : Bytes} {values : List α}, parse src = .ok values →
    ∃ tokens stop, Token.scan .start src = (tokens, .finished stop)
  follows : ∀ {src : Bytes} {tokens : List Token} {stop : Position},
    Token.scan .start src = (tokens, .finished stop) →
      Follows leaves value (meaningful tokens) (parse src)

theorem parses_parseAttributes :
    Parses AttributeTree.tokens AttributeTree.value parseAttributes :=
  ⟨scan_of_readSource, follows_parseAttributes⟩

theorem parses_parseItems : Parses ItemTree.tokens ItemTree.value parseItems :=
  ⟨scan_of_readSource, follows_parseItems⟩

end Grammar

open Grammar

/-- The parsers accept exactly their grammar, and what they return is the
derivation's value. -/
theorem parse_follows_grammar (src : Bytes) {tokens : List Token}
    {stop : Position}
    (hscan : Token.scan .start src = (tokens, .finished stop)) :
    Follows AttributeTree.tokens AttributeTree.value (meaningful tokens)
      (parseAttributes src) ∧
      Follows ItemTree.tokens ItemTree.value (meaningful tokens)
        (parseItems src) :=
  ⟨follows_parseAttributes hscan, follows_parseItems hscan⟩

/-- The comma behind the last term is where a further term is tried and given
up. -/
theorem parse_follows_grammar_trailing_comma :
    ∃ tokens stop,
      Token.scan .start (utf8 "#[cfg(any(feature = \"a\", test,),)] fn run;")
          = (tokens, .finished stop) ∧
        Follows AttributeTree.tokens AttributeTree.value (meaningful tokens)
          (parseAttributes
            (utf8 "#[cfg(any(feature = \"a\", test,),)] fn run;")) ∧
        Follows ItemTree.tokens ItemTree.value (meaningful tokens)
          (parseItems
            (utf8 "#[cfg(any(feature = \"a\", test,),)] fn run;")) := by
  have hscan :
      Token.scan .start (utf8 "#[cfg(any(feature = \"a\", test,),)] fn run;")
      = ((Token.scan .start
            (utf8 "#[cfg(any(feature = \"a\", test,),)] fn run;")).1,
          .finished ⟨42, 1, 43⟩) :=
    Prod.ext rfl (by decide +kernel)
  exact ⟨_, _, hscan, parse_follows_grammar _ hscan⟩

end FeatureGate
