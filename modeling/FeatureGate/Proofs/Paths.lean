import Mathlib
import FeatureGate.Files

/-!
Paths and the places they lead to. The clean form of a relative path and its
absolute form lead to the same place in a file tree: going up from the working
folder by name and by two dots is the same.
-/

namespace FeatureGate

namespace Bytes

variable {sep : UInt8}

theorem splitOn_ne_nil (sep : UInt8) (bytes : Bytes) :
    splitOn sep bytes ≠ [] := by
  cases bytes with
  | nil => simp [splitOn]
  | cons b rest =>
      rw [splitOn]
      split
      · simp
      · split <;> simp

theorem splitOn_append (sep : UInt8) (before after : Bytes) :
    splitOn sep (before ++ sep :: after) = splitOn sep before ++
      splitOn sep after := by
  induction before with
  | nil => simp [splitOn]
  | cons b before ih =>
      rw [List.cons_append, splitOn, splitOn, ih]
      split
      · rfl
      · cases h : splitOn sep before with
        | nil => exact absurd h (splitOn_ne_nil sep before)
        | cons part parts => rfl

theorem splitOn_of_not_mem {bytes : Bytes} (h : sep ∉ bytes) :
    splitOn sep bytes = [bytes] := by
  induction bytes with
  | nil => rfl
  | cons b rest ih =>
      rw [List.mem_cons, not_or] at h
      rw [splitOn, if_neg (Ne.symm h.1), ih h.2]

theorem not_mem_of_mem_splitOn {bytes part : Bytes}
    (h : part ∈ splitOn sep bytes) :
    sep ∉ part := by
  induction bytes generalizing part with
  | nil =>
      rw [splitOn, List.mem_singleton] at h
      simp [h]
  | cons b rest ih =>
      rw [splitOn] at h
      split at h
      · rcases List.mem_cons.mp h with rfl | h
        · simp
        · exact ih h
      · rename_i hb
        cases hsplit : splitOn sep rest with
        | nil => exact absurd hsplit (splitOn_ne_nil sep rest)
        | cons first parts =>
            rw [hsplit] at h ih
            rcases List.mem_cons.mp h with rfl | h
            · rw [List.mem_cons, not_or]
              exact ⟨Ne.symm hb, ih List.mem_cons_self⟩
            · exact ih (List.mem_cons_of_mem first h)

theorem join_cons {part : Bytes} {parts : List Bytes} (h : parts ≠ []) :
    join [sep] (part :: parts) = part ++ sep :: join [sep] parts := by
  cases parts with
  | nil => exact absurd rfl h
  | cons next parts => simp [join]

/-- Splitting undoes joining. -/
theorem splitOn_join {parts : List Bytes} (hne : parts ≠ [])
    (h : ∀ part ∈ parts, sep ∉ part) :
    splitOn sep (join [sep] parts) = parts := by
  induction parts with
  | nil => exact absurd rfl hne
  | cons part parts ih =>
      rw [List.forall_mem_cons] at h
      by_cases hparts : parts = []
      · rw [hparts]
        simpa [join] using splitOn_of_not_mem h.1
      · rw [join_cons hparts, splitOn_append, splitOn_of_not_mem h.1,
          ih hparts h.2]
        rfl

theorem join_concat {parts : List Bytes} (h : parts ≠ []) (last : Bytes) :
    join [sep] (parts ++ [last]) = join [sep] parts ++ sep :: last := by
  induction parts with
  | nil => exact absurd rfl h
  | cons part parts ih =>
      rw [List.cons_append, join_cons (by simp)]
      by_cases hparts : parts = []
      · simp [hparts, join]
      · rw [ih hparts, join_cons hparts, List.append_assoc]
        rfl

theorem mem_join {b : UInt8} {parts : List Bytes} (hb : b ≠ sep) :
    b ∈ join [sep] parts ↔ ∃ part ∈ parts, b ∈ part := by
  induction parts with
  | nil => simp [join]
  | cons part parts ih =>
      by_cases hparts : parts = []
      · simp [hparts, join]
      · rw [join_cons hparts, List.mem_append, List.mem_cons, ih]
        simp [hb]

end Bytes

namespace Path

/-- Whether a part can be the name of a file. -/
def isName (part : Bytes) : Bool :=
  !part.isEmpty && part ≠ here && part ≠ up && !part.contains slash &&
    !part.contains 0
    && part.length ≤ FileTree.longestName

/-- A part that leads down: neither empty nor dots. -/
def LeadsDown (part : Bytes) : Prop := part ≠ [] ∧ part ≠ here ∧ part ≠ up

theorem leadsDown_of_isName {part : Bytes} (h : isName part = true) :
    LeadsDown part := by
  simp only [isName, Bool.and_eq_true, Bool.not_eq_true',
    decide_eq_true_eq] at h
  obtain ⟨⟨⟨⟨⟨hne, hhere⟩, hup⟩, -⟩, -⟩, -⟩ := h
  exact ⟨by simpa using hne, hhere, hup⟩

theorem slash_not_mem_of_isName {part : Bytes} (h : isName part = true) :
    slash ∉ part := by
  simp only [isName, Bool.and_eq_true, Bool.not_eq_true'] at h
  simpa using h.1.1.2

theorem zero_not_mem_of_isName {part : Bytes} (h : isName part = true) :
    0 ∉ part := by
  simp only [isName, Bool.and_eq_true, Bool.not_eq_true'] at h
  simpa using h.1.2

theorem pushPart_of_leadsDown {part : Bytes} (h : LeadsDown part)
    (absolute : Bool) (parts : List Bytes) :
    pushPart absolute parts part = part :: parts := by
  simp [pushPart, h.1, h.2.1, h.2.2]

theorem pushPart_of_stays {part : Bytes} (h : part = [] ∨ part = here)
    (absolute : Bool) (parts : List Bytes) :
    pushPart absolute parts part = parts := by
  rcases h with rfl | rfl <;> simp [pushPart]

theorem pushPart_up_cons (absolute : Bool) (last : Bytes) (parts : List Bytes) :
    pushPart absolute (last :: parts) up = if last = up then up :: last :: parts
      else parts := rfl

theorem foldl_pushPart_of_leadsDown {more : List Bytes}
    (h : ∀ part ∈ more, LeadsDown part) (absolute : Bool) (parts : List Bytes) :
    more.foldl (pushPart absolute) parts = more.reverse ++ parts := by
  induction more generalizing parts with
  | nil => rfl
  | cons part more ih =>
      rw [List.forall_mem_cons] at h
      rw [List.foldl_cons, pushPart_of_leadsDown h.1, ih h.2]
      simp

/-- Parts read from nowhere and the same parts read behind a folder: below what
leads down there are two dots in the one case, and in the other what they leave
of the folder. -/
def ReadBehind (base relative absolute : List Bytes) : Prop :=
  ∃ (down : List Bytes) (ups : Nat),
    (∀ part ∈ down, LeadsDown part ∧ slash ∉ part)
    ∧ relative = down ++ List.replicate ups up
    ∧ absolute = down ++ base.drop ups

/-- One part more keeps a relative path and its absolute form together. -/
theorem ReadBehind.pushPart {base relative absolute : List Bytes}
    (hbase : ∀ part ∈ base, LeadsDown part)
    (h : ReadBehind base relative absolute) {part : Bytes}
    (hpart : slash ∉ part) :
    ReadBehind base (pushPart false relative part)
      (pushPart true absolute part) := by
  obtain ⟨down, ups, hdown, rfl, rfl⟩ := h
  by_cases hstays : part = [] ∨ part = here
  · rw [pushPart_of_stays hstays, pushPart_of_stays hstays]
    exact ⟨down, ups, hdown, rfl, rfl⟩
  by_cases hup : part = up
  · subst hup
    cases down with
    | cons last down =>
        rw [List.forall_mem_cons] at hdown
        have hlast := hdown.1.1.2.2
        rw [List.cons_append, List.cons_append, pushPart_up_cons,
          pushPart_up_cons, if_neg hlast, if_neg hlast]
        exact ⟨down, ups, hdown.2, rfl, rfl⟩
    | nil =>
        refine ⟨[], ups + 1, hdown, ?_, ?_⟩
        · cases ups with
          | zero => rfl
          | succ ups =>
              rw [List.nil_append, List.replicate_succ, pushPart_up_cons,
                if_pos rfl]
              rfl
        · rw [List.nil_append, List.nil_append, ← List.drop_drop]
          cases hdrop : base.drop ups with
          | nil => rfl
          | cons last rest =>
              have hmem : last ∈ base :=
                List.mem_of_mem_drop (hdrop ▸ List.mem_cons_self)
              rw [pushPart_up_cons, if_neg (hbase last hmem).2.2]
              rfl
  · rw [not_or] at hstays
    have hdownward : LeadsDown part := ⟨hstays.1, hstays.2, hup⟩
    rw [pushPart_of_leadsDown hdownward, pushPart_of_leadsDown hdownward]
    refine ⟨part :: down, ups, ?_, rfl, rfl⟩
    rw [List.forall_mem_cons]
    exact ⟨⟨hdownward, hpart⟩, hdown⟩

/-- Reading on keeps a relative path and its absolute form together. -/
theorem readBehind_foldl {base : List Bytes}
    (hbase : ∀ part ∈ base, LeadsDown part) {more : List Bytes}
    (hmore : ∀ part ∈ more, slash ∉ part) {relative absolute : List Bytes}
    (h : ReadBehind base relative absolute) :
    ReadBehind base (more.foldl (Path.pushPart false) relative)
      (more.foldl (Path.pushPart true) absolute) := by
  induction more generalizing relative absolute with
  | nil => exact h
  | cons part more ih =>
      rw [List.forall_mem_cons] at hmore
      exact ih hmore.2 (h.pushPart hbase hmore.1)

theorem foldl_splitOn_join {parts : List Bytes}
    (h : ∀ part ∈ parts, LeadsDown part ∧ slash ∉ part) (absolute : Bool)
    (before : List Bytes) :
    (Bytes.splitOn slash (Bytes.join [slash] parts)).foldl
      (pushPart absolute) before
      = parts.reverse ++ before := by
  cases parts with
  | nil => rfl
  | cons part parts =>
      rw [Bytes.splitOn_join (by simp) fun part hpart => (h part hpart).2]
      exact foldl_pushPart_of_leadsDown (fun part hpart => (h part hpart).1)
        absolute before

theorem splitOn_slash_cons (text : Bytes) :
    Bytes.splitOn slash (slash :: text) = [] :: Bytes.splitOn slash text :=
  Bytes.splitOn_append slash [] text

theorem foldl_splitOn_rooted {parts : List Bytes}
    (h : ∀ part ∈ parts, LeadsDown part ∧ slash ∉ part) :
    (Bytes.splitOn slash (slash :: Bytes.join [slash] parts)).foldl
      (pushPart true) []
      = parts.reverse := by
  rw [splitOn_slash_cons, List.foldl_cons, pushPart_of_stays (Or.inl rfl),
    foldl_splitOn_join h, List.append_nil]

/-- Texts joined from parts begin like their first part. -/
theorem join_cases (parts : List Bytes) :
    parts = [] ∨ ∃ part ∈ parts, ∃ rest, Bytes.join [slash] parts =
      part ++ rest := by
  cases parts with
  | nil => exact Or.inl rfl
  | cons part parts =>
      right
      refine ⟨part, List.mem_cons_self, ?_⟩
      by_cases hparts : parts = []
      · exact ⟨[], by simp [hparts, Bytes.join]⟩
      · exact ⟨_, Bytes.join_cons hparts⟩

theorem isAbsolute_append {part : Bytes} (hne : part ≠ [])
    (hslash : slash ∉ part) (rest : Bytes) :
    isAbsolute (part ++ rest) = false := by
  cases part with
  | nil => exact absurd rfl hne
  | cons b part =>
      have hb : b ≠ slash := fun heq => hslash (heq ▸ List.mem_cons_self)
      simp [isAbsolute, hb]

/-- The clean text of parts in which nothing is left to clean. -/
def relativeText (parts : List Bytes) : Bytes :=
  if (Bytes.join [slash] parts).isEmpty then here else Bytes.join [slash] parts

theorem clean_of_isAbsolute {path : Bytes} (h : isAbsolute path = true) :
    clean path = slash :: Bytes.join [slash]
      ((Bytes.splitOn slash path).foldl (pushPart true) []).reverse := by
  rw [clean, cleanParts, h]
  rfl

theorem clean_of_relative {path : Bytes} (h : isAbsolute path = false) :
    clean path = relativeText
      ((Bytes.splitOn slash path).foldl (pushPart false) []).reverse := by
  rw [clean, cleanParts, h]
  rfl

theorem join_of_ne_nil {base : Bytes} (h : base ≠ []) (path : Bytes) :
    join base path = clean (base ++ slash :: path) := by
  rw [join, if_neg (by simpa using h), List.append_assoc]
  rfl

theorem lastPart_of_not_mem {last : Bytes} (h : slash ∉ last) :
    lastPart last = last := by
  rw [lastPart, List.takeWhile_eq_self_iff.mpr, List.reverse_reverse]
  intro b hb
  exact decide_eq_true fun heq => h (heq ▸ List.mem_reverse.mp hb)

theorem lastPart_append {last : Bytes} (h : slash ∉ last) (before : Bytes) :
    lastPart (before ++ slash :: last) = last := by
  have hall : ∀ b ∈ last.reverse, decide (b ≠ slash) = true :=
    fun b hb => decide_eq_true fun heq => h (heq ▸ List.mem_reverse.mp hb)
  rw [lastPart, List.reverse_append, List.reverse_cons, List.append_assoc,
    List.takeWhile_append_of_pos hall]
  simp

theorem clean_append_slash {path : Bytes} (h : path ≠ []) :
    clean (path ++ [slash]) = clean path := by
  have habsolute : isAbsolute (path ++ [slash]) = isAbsolute path := by
    cases path with
    | nil => exact absurd rfl h
    | cons b path => rfl
  rw [clean, clean, cleanParts, cleanParts, habsolute, Bytes.splitOn_append,
    List.foldl_append]
  rfl

theorem folder_append {last : Bytes} (h : slash ∉ last) {before : Bytes}
    (hbefore : before ≠ []) :
    folder (before ++ slash :: last) = clean before := by
  have hlength : (before ++ [slash]).length =
      (before ++ slash :: last).length - last.length := by
    simp only [List.length_append, List.length_cons, List.length_nil]
    omega
  rw [folder, lastPart_append h, ← clean_append_slash hbefore, List.append_cons,
    List.take_left' (by rw [← List.append_cons]; exact hlength)]

/-- A path of nothing but names is clean. -/
theorem clean_rooted {parts : List Bytes}
    (h : ∀ part ∈ parts, LeadsDown part ∧ slash ∉ part) :
    clean (slash :: Bytes.join [slash] parts) = slash :: Bytes.join
      [slash] parts := by
  rw [clean_of_isAbsolute rfl, foldl_splitOn_rooted h, List.reverse_reverse]

theorem relativeText_nil : relativeText [] = here := rfl

theorem relativeText_ne_nil (parts : List Bytes) : relativeText parts ≠ [] := by
  rw [relativeText]
  split
  · decide
  · rename_i hne
    simpa using hne

theorem relativeText_eq_join {parts : List Bytes} (hne : parts ≠ [])
    (h : ∀ part ∈ parts, part ≠ []) :
    relativeText parts = Bytes.join [slash] parts := by
  rcases join_cases parts with hnil | ⟨part, hpart, more, hjoin⟩
  · exact absurd hnil hne
  · rw [relativeText, if_neg (by simp [hjoin, h part hpart])]

theorem isAbsolute_relativeText {parts : List Bytes}
    (h : ∀ part ∈ parts, LeadsDown part ∧ slash ∉ part) (rest : Bytes) :
    isAbsolute (relativeText parts ++ rest) = false := by
  rcases join_cases parts with rfl | ⟨part, hpart, more, hjoin⟩
  · rfl
  · rw [relativeText_eq_join (List.ne_nil_of_mem hpart) fun part hpart =>
      (h part hpart).1.1, hjoin, List.append_assoc]
    exact isAbsolute_append (h part hpart).1.1 (h part hpart).2 _

theorem foldl_splitOn_relativeText {parts : List Bytes}
    (h : ∀ part ∈ parts, LeadsDown part ∧ slash ∉ part) (absolute : Bool)
    (before : List Bytes) :
    (Bytes.splitOn slash (relativeText parts)).foldl (pushPart absolute) before
      = parts.reverse ++ before := by
  by_cases hne : parts = []
  · rw [hne]
    rfl
  · rw [relativeText_eq_join hne fun part hpart => (h part hpart).1.1]
    exact foldl_splitOn_join h absolute before

theorem clean_relativeText {parts : List Bytes}
    (h : ∀ part ∈ parts, LeadsDown part ∧ slash ∉ part) :
    clean (relativeText parts) = relativeText parts := by
  have hrelative := isAbsolute_relativeText h []
  rw [List.append_nil] at hrelative
  rw [clean_of_relative hrelative, foldl_splitOn_relativeText h,
    List.append_nil, List.reverse_reverse]

theorem folder_of_not_mem {last : Bytes} (h : slash ∉ last) :
    folder last = here := by
  rw [folder, lastPart_of_not_mem h, Nat.sub_self]
  rfl

section File

variable {parts : List Bytes} {last : Bytes}
  (hparts : ∀ part ∈ parts, LeadsDown part ∧ slash ∉ part)
  (hlast : LeadsDown last ∧ slash ∉ last)

include hlast

theorem lastPart_rooted :
    lastPart (slash :: Bytes.join [slash] (parts ++ [last])) = last := by
  by_cases h : parts = []
  · rw [h]
    simpa [Bytes.join] using lastPart_append hlast.2 []
  · rw [Bytes.join_concat h]
    exact lastPart_append hlast.2 (slash :: Bytes.join [slash] parts)

include hparts

theorem relativeText_concat :
    relativeText (parts ++ [last]) = Bytes.join [slash] (parts ++ [last]) := by
  apply relativeText_eq_join (by simp)
  intro part hpart
  rcases List.mem_append.mp hpart with hpart | hpart
  · exact (hparts part hpart).1.1
  · rw [List.mem_singleton.mp hpart]
    exact hlast.1.1

theorem lastPart_relativeText :
    lastPart (relativeText (parts ++ [last])) = last := by
  rw [relativeText_concat hparts hlast]
  by_cases h : parts = []
  · rw [h]
    simpa [Bytes.join] using lastPart_of_not_mem hlast.2
  · rw [Bytes.join_concat h]
    exact lastPart_append hlast.2 _

theorem folder_rooted :
    folder (slash :: Bytes.join [slash] (parts ++ [last])) = slash :: Bytes.join
      [slash] parts := by
  by_cases h : parts = []
  · have hroot : Bytes.join [slash] ([] ++ [last]) = last := by
      simp [Bytes.join]
    have htake : (slash :: last).take ((slash :: last).length - last.length) =
        [slash] := by simp
    have hlastPart : lastPart (slash :: last) = last :=
      lastPart_append hlast.2 []
    rw [h, hroot, folder, hlastPart, htake]
    rfl
  · rw [Bytes.join_concat h, ← List.cons_append,
      folder_append hlast.2 (by simp), clean_rooted hparts]

theorem folder_relativeText :
    folder (relativeText (parts ++ [last])) = relativeText parts := by
  rw [relativeText_concat hparts hlast]
  by_cases h : parts = []
  · rw [h, relativeText_nil]
    simpa [Bytes.join] using folder_of_not_mem hlast.2
  · have hjoin :=
      relativeText_eq_join h fun part hpart => (hparts part hpart).1.1
    have hne : Bytes.join [slash] parts ≠ [] := by
      rcases join_cases parts with hnil | ⟨part, hpart, more, hmore⟩
      · exact absurd hnil h
      · simp [hmore, (hparts part hpart).1.1]
    rw [Bytes.join_concat h, folder_append hlast.2 hne, ← hjoin,
      clean_relativeText hparts]

end File

end Path

namespace FileTree

/-- The working place is made of names. -/
def IsSound (t : FileTree) : Prop :=
  ∀ part ∈ t.workPlace, Path.isName part = true

instance (t : FileTree) : Decidable t.IsSound :=
  inferInstanceAs (Decidable (∀ part ∈ t.workPlace, Path.isName part = true))

theorem hasFolder_of_isPrefix {t : FileTree} {place : List Bytes}
    (h : place <+: t.workPlace) :
    t.hasFolder place = true := by
  simp [hasFolder, h]

theorem follow_of_stays {t : FileTree} {place : List Bytes}
    (hplace : t.hasFolder place = true) {part : Bytes}
    (h : part = [] ∨ part = Path.here) (parts : List Bytes) :
    t.follow place (part :: parts) = t.follow place parts := by
  rcases h with rfl | rfl <;> simp [follow, hplace]

theorem follow_up {t : FileTree} {place : List Bytes}
    (hplace : t.hasFolder place = true) (parts : List Bytes) :
    t.follow place (Path.up :: parts) = t.follow place.dropLast parts := by
  have hstays : ¬ (Path.up.isEmpty || decide (Path.up = Path.here)) = true := by
    decide
  rw [follow, if_neg (by simp [hplace]), if_neg hstays, if_pos rfl]

theorem follow_name {t : FileTree} {place : List Bytes} {part : Bytes}
    (hpart : Path.isName part = true) (hplace : t.hasFolder place = true)
    (hnext : t.hasFolder (place ++ [part]) = true) (parts : List Bytes) :
    t.follow place (part :: parts) = t.follow (place ++ [part]) parts := by
  obtain ⟨hne, hhere, hup⟩ := Path.leadsDown_of_isName hpart
  simp only [Path.isName, Bool.and_eq_true, decide_eq_true_eq] at hpart
  have hstays : ¬ (part.isEmpty || decide (part = Path.here)) = true := by
    simp [hne, hhere]
  rw [follow, if_neg (by simp [hplace]), if_neg hstays, if_neg hup,
    if_neg (Nat.not_lt.mpr hpart.2)]
  simp [hnext]

/-- The names of the working place lead down to it. -/
theorem follow_workPlace {t : FileTree} (ht : t.IsSound)
    {place more : List Bytes} (h : place ++ more <+: t.workPlace)
    (parts : List Bytes) :
    t.follow place (more ++ parts) = t.follow (place ++ more) parts := by
  induction more generalizing place with
  | nil => simp
  | cons part more ih =>
      have hpart : Path.isName part = true := ht part (h.subset (by simp))
      rw [← List.singleton_append, ← List.append_assoc] at h
      have hnext : place ++ [part] <+: t.workPlace :=
        (List.prefix_append _ _).trans h
      have hplace : place <+: t.workPlace :=
        (List.prefix_append _ _).trans hnext
      rw [List.cons_append, follow_name hpart (hasFolder_of_isPrefix hplace)
        (hasFolder_of_isPrefix hnext), ih h, List.append_assoc]
      rfl

/-- Two dots lead up again from there. -/
theorem follow_ups {t : FileTree} (ups : Nat) {place : List Bytes}
    (h : place <+: t.workPlace) (parts : List Bytes) :
    t.follow place (List.replicate ups Path.up ++ parts)
      = t.follow (place.take (place.length - ups)) parts := by
  induction ups generalizing place with
  | zero => simp
  | succ ups ih =>
      have habove : place.dropLast <+: t.workPlace :=
        (List.dropLast_prefix place).trans h
      rw [List.replicate_succ, List.cons_append,
        follow_up (hasFolder_of_isPrefix h), ih habove, List.length_dropLast,
        List.dropLast_eq_take, List.take_take]
      congr 2
      omega

/-- The parts of a path, followed from a place; a zero byte in any of them is
noticed first. -/
def walk (t : FileTree) (place parts : List Bytes) :
    Except FileFault (List Bytes) :=
  if ∃ part ∈ parts, 0 ∈ part then .error .invalidName else t.follow place parts

/-- Where a path leads depends on its parts alone. -/
theorem locate_eq_walk {t : FileTree} {path : Bytes} {place parts : List Bytes}
    (hne : path ≠ []) (hzero : 0 ∈ path ↔ ∃ part ∈ parts, 0 ∈ part)
    (hplace : (if Path.isAbsolute path then [] else t.workPlace) = place)
    (hfollow : t.follow place (Bytes.splitOn Path.slash path) =
      t.follow place parts) :
    t.locate path = t.walk place parts := by
  rw [locate, walk, hplace, hfollow]
  by_cases hbad : (0 : UInt8) ∈ path
  · rw [if_pos (List.contains_iff_mem.mpr hbad), if_pos (hzero.mp hbad)]
  · rw [if_neg (mt List.contains_iff_mem.mp hbad), if_neg (mt hzero.mpr hbad),
      if_neg (by simpa using hne)]

/-- An absolute path is walked from the root. -/
theorem locate_rooted (t : FileTree) {parts : List Bytes}
    (h : ∀ part ∈ parts, Path.slash ∉ part) :
    t.locate (Path.slash :: Bytes.join [Path.slash] parts) =
      t.walk [] parts := by
  have hroot : t.hasFolder [] = true := hasFolder_of_isPrefix List.nil_prefix
  have hslash : (0 : UInt8) ≠ Path.slash := by decide
  have hplace :
      (if Path.isAbsolute (Path.slash :: Bytes.join [Path.slash] parts) then []
      else t.workPlace) = [] := rfl
  apply locate_eq_walk (by simp) _ hplace
  · rw [Path.splitOn_slash_cons, follow_of_stays hroot (Or.inl rfl)]
    cases parts with
    | nil => exact follow_of_stays hroot (Or.inl rfl) []
    | cons part parts => rw [Bytes.splitOn_join (by simp) h]
  · rw [List.mem_cons, Bytes.mem_join hslash]
    simp [hslash]

/-- A relative path is walked from the working folder. -/
theorem locate_relativeText (t : FileTree) {parts : List Bytes}
    (h : ∀ part ∈ parts, part ≠ [] ∧ Path.slash ∉ part) :
    t.locate (Path.relativeText parts) = t.walk t.workPlace parts := by
  have hfolder : t.hasFolder t.workPlace = true :=
    hasFolder_of_isPrefix List.prefix_rfl
  have hslash : (0 : UInt8) ≠ Path.slash := by decide
  rcases Path.join_cases parts with rfl | ⟨part, hpart, rest, hjoin⟩
  · apply locate_eq_walk (by decide) (by decide) rfl
    exact follow_of_stays hfolder (Or.inr rfl) []
  · have hne : Bytes.join [Path.slash] parts ≠ [] := by
      simp [hjoin, (h part hpart).1]
    rw [Path.relativeText, if_neg (by simpa using hne)]
    apply locate_eq_walk hne (Bytes.mem_join hslash)
    · rw [hjoin, Path.isAbsolute_append (h part hpart).1 (h part hpart).2]
      rfl
    · rw [Bytes.splitOn_join (List.ne_nil_of_mem hpart) fun part hpart =>
        (h part hpart).2]

theorem workFolder_eq (t : FileTree) :
    t.view.workFolder = Path.slash :: Bytes.join [Path.slash] t.workPlace := rfl

theorem read_view (t : FileTree) (path : Bytes) :
    t.view.read path = t.read path := rfl

theorem leadsDown_of_isSound {t : FileTree} (ht : t.IsSound) :
    ∀ part ∈ t.workPlace, Path.LeadsDown part ∧ Path.slash ∉ part :=
  fun part hpart => ⟨Path.leadsDown_of_isName (ht part hpart),
    Path.slash_not_mem_of_isName (ht part hpart)⟩

/-- From the root down and up to a place above the working place, or from the
working place up. -/
theorem walk_behind {t : FileTree} (ht : t.IsSound) (ups : Nat)
    (down : List Bytes) :
    t.walk [] (t.workPlace.take (t.workPlace.length - ups) ++ down)
      = t.walk t.workPlace (List.replicate ups Path.up ++ down) := by
  have hzero : (∃ part ∈ t.workPlace.take (t.workPlace.length - ups) ++ down,
      (0 : UInt8) ∈ part)
      ↔ ∃ part ∈ List.replicate ups Path.up ++ down, (0 : UInt8) ∈ part := by
    have hplace : ∀ part ∈ t.workPlace.take (t.workPlace.length - ups),
        (0 : UInt8) ∉ part :=
      fun part hpart => Path.zero_not_mem_of_isName
        (ht part (List.mem_of_mem_take hpart))
    have hups : ∀ part ∈ List.replicate ups Path.up, (0 : UInt8) ∉ part := by
      intro part hpart
      rw [List.eq_of_mem_replicate hpart]
      decide
    simp only [List.mem_append]
    grind
  have hfollow :
      t.follow [] (t.workPlace.take (t.workPlace.length - ups) ++ down)
      = t.follow t.workPlace (List.replicate ups Path.up ++ down) := by
    rw [follow_workPlace ht (List.take_prefix _ _),
      follow_ups ups List.prefix_rfl]
    rfl
  simp only [walk, hzero, hfollow]

/-- A clean relative path leads where its absolute form leads. -/
theorem locate_clean_behind {t : FileTree} (ht : t.IsSound) {path : Bytes}
    (hpath : Path.isAbsolute path = false) :
    t.locate (Path.clean (t.view.workFolder ++ Path.slash :: path))
      = t.locate (Path.clean path) := by
  have hplace := leadsDown_of_isSound ht
  have hbase : ∀ part ∈ t.workPlace.reverse, Path.LeadsDown part :=
    fun part hpart => (hplace part (List.mem_reverse.mp hpart)).1
  have habsolute :
      Path.isAbsolute (t.view.workFolder ++ Path.slash :: path) = true := rfl
  have hstart : Path.ReadBehind t.workPlace.reverse [] t.workPlace.reverse :=
    ⟨[], 0, by simp, rfl, rfl⟩
  have hparts : ∀ part ∈ Bytes.splitOn Path.slash path, Path.slash ∉ part :=
    fun part hpart => Bytes.not_mem_of_mem_splitOn hpart
  obtain ⟨down, ups, hdown, hrelative, hrooted⟩ :=
    Path.readBehind_foldl hbase hparts hstart
  rw [Path.clean_of_isAbsolute habsolute, Path.clean_of_relative hpath,
    hrelative, Bytes.splitOn_append, List.foldl_append, workFolder_eq,
    Path.foldl_splitOn_rooted hplace, hrooted, List.drop_reverse,
    List.reverse_append, List.reverse_append, List.reverse_reverse,
    List.reverse_replicate]
  rw [locate_rooted, locate_relativeText]
  · exact walk_behind ht ups down.reverse
  · intro part hpart
    rcases List.mem_append.mp hpart with hpart | hpart
    · rw [List.eq_of_mem_replicate hpart]
      decide
    · have := hdown part (List.mem_reverse.mp hpart)
      exact ⟨this.1.1, this.2⟩
  · intro part hpart
    rcases List.mem_append.mp hpart with hpart | hpart
    · exact (hplace part (List.mem_of_mem_take hpart)).2
    · exact (hdown part (List.mem_reverse.mp hpart)).2

end FileTree

/-- The path and its absolute form name the same file in the same folder. -/
structure FileView.SameForms (view : FileView) (path : Bytes) : Prop where
  lastPart : Path.lastPart (Path.absolute view.workFolder path) =
    Path.lastPart path
  file : view.read (Path.absolute view.workFolder path) = view.read path
  folder : ∀ other, view.read
    (Path.join (Path.folder (Path.absolute view.workFolder path)) other)
    = view.read (Path.join (Path.folder path) other)

namespace FileTree

/-- In a tree, a path of names is the same in both forms. -/
theorem sameForms {t : FileTree} (ht : t.IsSound) {parts : List Bytes}
    {last : Bytes}
    (hparts : ∀ part ∈ parts, Path.LeadsDown part ∧ Path.slash ∉ part)
    (hlast : Path.LeadsDown last ∧ Path.slash ∉ last) :
    t.view.SameForms (Path.relativeText (parts ++ [last])) := by
  have hplace := leadsDown_of_isSound ht
  have hall : ∀ part ∈ parts ++ [last], Path.LeadsDown part ∧
      Path.slash ∉ part := by
    rw [List.forall_mem_append]
    exact ⟨hparts, by simpa using hlast⟩
  have hbase : ∀ part ∈ t.workPlace ++ parts, Path.LeadsDown part ∧
      Path.slash ∉ part :=
    List.forall_mem_append.mpr ⟨hplace, hparts⟩
  have hrelative := Path.isAbsolute_relativeText hall []
  rw [List.append_nil] at hrelative
  have hform :
      Path.absolute t.view.workFolder (Path.relativeText (parts ++ [last]))
      = Path.clean (t.view.workFolder ++ Path.slash :: Path.relativeText
        (parts ++ [last])) := by
    rw [Path.absolute, hrelative, if_neg (by simp),
      Path.join_of_ne_nil (by simp [workFolder_eq])]
  have hrooted :
      Path.absolute t.view.workFolder (Path.relativeText (parts ++ [last]))
      = Path.slash :: Bytes.join [Path.slash]
        (t.workPlace ++ parts ++ [last]) := by
    rw [hform, Path.clean_of_isAbsolute rfl, Bytes.splitOn_append,
      List.foldl_append, workFolder_eq, Path.foldl_splitOn_rooted hplace,
      Path.foldl_splitOn_relativeText hall]
    simp
  refine ⟨?_, ?_, ?_⟩
  · rw [hrooted, Path.lastPart_rooted hlast,
      Path.lastPart_relativeText hparts hlast]
  · rw [read_view, read_view, read, read, hform,
      locate_clean_behind ht hrelative, Path.clean_relativeText hall]
  · intro other
    have hbehind := Path.isAbsolute_relativeText hparts (Path.slash :: other)
    rw [read_view, read_view, read, read, hrooted,
      Path.folder_rooted hbase hlast, Path.folder_relativeText hparts hlast,
      Path.join_of_ne_nil (by simp),
      Path.join_of_ne_nil (Path.relativeText_ne_nil parts),
      ← locate_clean_behind ht hbehind, Path.clean_of_isAbsolute rfl,
      Path.clean_of_isAbsolute rfl, Bytes.splitOn_append, Bytes.splitOn_append,
      Bytes.splitOn_append, List.foldl_append, List.foldl_append,
      List.foldl_append, workFolder_eq, Path.foldl_splitOn_rooted hbase,
      Path.foldl_splitOn_rooted hplace, Path.foldl_splitOn_relativeText hparts,
      List.reverse_append]

end FileTree

end FeatureGate
