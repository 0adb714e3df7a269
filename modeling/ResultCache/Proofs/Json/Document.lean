import ResultCache.Json.Basic
import ResultCache.Proofs.Json.Number

/-!
# Documents read back from their text

`Json.chars` writes a document without white space, and every document whose strings are text and
whose numbers are numbers of the grammar is read back from what was written (`parse?_chars`).

Reading takes two steps. The reader of characters is between two tokens wherever the text of a
document begins, and it is so again behind it (`Spells`); a number or a word ends only where
punctuation or the end of the text follows it, so this is part of what is asked of the rest. The
reader of tokens waits for a value before the tokens of a document and has it after them, whatever
containers it is in (`Reads`).
-/
namespace ResultCache.Json

mutual

/-- The text of a document, without white space. -/
def chars : Json → List Char
  | .null => ['n', 'u', 'l', 'l']
  | .bool true => ['t', 'r', 'u', 'e']
  | .bool false => ['f', 'a', 'l', 's', 'e']
  | .number n => n.chars
  | .string s => (stringText (s.getD "")).toList
  | .array items => '[' :: ([','].intercalate (charsAll items) ++ [']'])
  | .object members => '\x7b' :: ([','].intercalate (charsMembers members) ++ ['\x7d'])

def charsAll : List Json → List (List Char)
  | [] => []
  | j :: js => chars j :: charsAll js

def charsMembers : List (Option String × Json) → List (List Char)
  | [] => []
  | (name, j) :: ms => ((stringText (name.getD "")).toList ++ ':' :: chars j) :: charsMembers ms

end

mutual

/-- The tokens of a document. -/
def tokens : Json → List Token
  | .null => [.null]
  | .bool b => [.bool b]
  | .number n => [.number n]
  | .string s => [.string s]
  | .array items => .openArray :: ([.comma].intercalate (tokensAll items) ++ [.closeArray])
  | .object members =>
    .openObject :: ([.comma].intercalate (tokensMembers members) ++ [.closeObject])

def tokensAll : List Json → List (List Token)
  | [] => []
  | j :: js => tokens j :: tokensAll js

def tokensMembers : List (Option String × Json) → List (List Token)
  | [] => []
  | (name, j) :: ms => (.string name :: .colon :: tokens j) :: tokensMembers ms

end

/-- The text of a member. -/
def memberChars (m : Option String × Json) : List Char :=
  (stringText (m.1.getD "")).toList ++ ':' :: m.2.chars

/-- The tokens of a member. -/
def memberTokens (m : Option String × Json) : List Token := .string m.1 :: .colon :: m.2.tokens

theorem charsAll_eq_map (js : List Json) : charsAll js = js.map chars := by
  induction js with
  | nil => rfl
  | cons j js ih => rw [charsAll, ih, List.map_cons]

theorem charsMembers_eq_map (ms : List (Option String × Json)) :
    charsMembers ms = ms.map memberChars := by
  induction ms with
  | nil => rfl
  | cons m ms ih => rw [charsMembers, ih, List.map_cons, memberChars]

theorem tokensAll_eq_map (js : List Json) : tokensAll js = js.map tokens := by
  induction js with
  | nil => rfl
  | cons j js ih => rw [tokensAll, ih, List.map_cons]

theorem tokensMembers_eq_map (ms : List (Option String × Json)) :
    tokensMembers ms = ms.map memberTokens := by
  induction ms with
  | nil => rfl
  | cons m ms ih => rw [tokensMembers, ih, List.map_cons, memberTokens]

/-- Documents that can be written: strings and names are text, numbers are numbers. -/
inductive Written : Json → Prop where
  | null : Written .null
  | bool (b : Bool) : Written (.bool b)
  | number {n : Number} (hn : n.Written) : Written (.number n)
  | string (s : String) : Written (.string (some s))
  | array {items : List Json} (hitems : ∀ j ∈ items, Written j) : Written (.array items)
  | object {members : List (Option String × Json)} (names : ∀ m ∈ members, m.1.isSome)
      (hmembers : ∀ m ∈ members, Written m.2) : Written (.object members)

/-- Parts with a separator between them, as the first part and the others behind a separator. -/
theorem intercalate_cons {α : Type} (a : α) (l : List α) (ls : List (List α)) :
    [a].intercalate (l :: ls) = l ++ ls.flatMap (a :: ·) := by
  induction ls generalizing l with
  | nil => simp
  | cons m ls ih => rw [List.intercalate_cons_cons, ih, List.flatMap_cons]; simp

/-- A part of a string that stands for a character: the character itself, or the number of a control
character. -/
def Piece.Is (p : Piece) (c : Char) : Prop := p = .char c ∨ p = .unit c.toNat ∧ c < ' '

theorem joinPieces_cons {p : Piece} {ps : List Piece} {c : Char} {cs : List Char} (hp : p.Is c)
    (hps : joinPieces ps = some cs) : joinPieces (p :: ps) = some (c :: cs) := by
  rcases hp with rfl | ⟨rfl, hc⟩
  · rw [joinPieces, hps]
    rfl
  · have hlt : c.toNat < 32 := hc
    have hhigh : ¬ (0xd800 ≤ c.toNat ∧ c.toNat < 0xdc00) := by omega
    have hlow : ¬ (0xdc00 ≤ c.toNat ∧ c.toNat < 0xe000) := by omega
    rw [joinPieces.eq_def]
    simp [hhigh, hlow, hps]

namespace Lexer

variable {c d : Char} {cs ds rest : List Char} {t u : Token} {ts us : List Token}

theorem tokens_cons {st next : Lexer} (hstep : st.step c = some (ts, next)) (cs : List Char) :
    st.tokens (c :: cs) = (next.tokens cs).map (ts ++ ·) := by
  rw [Lexer.tokens, hstep]
  exact Option.map_eq_bind.symm

/-- Whether a number or a word can end before a text. -/
def Breaks (rest : List Char) : Prop := ∀ c ∈ rest.head?, (punctuation? c).isSome

theorem breaks_cons (hc : punctuation? c = some t) (cs : List Char) : Breaks (c :: cs) := by
  intro d hd
  cases hd
  rw [hc]
  rfl

/-- Between two tokens the reader takes these tokens from these characters and is between two
tokens again. -/
def Spells (cs : List Char) (ts : List Token) : Prop :=
  ∀ ⦃rest : List Char⦄, Breaks rest →
    between.tokens (cs ++ rest) = (between.tokens rest).map (ts ++ ·)

theorem spells_nil : Spells [] [] := fun _ _ => by simp

theorem tokens_punctuation (hc : punctuation? c = some t) (cs : List Char) :
    between.tokens (c :: cs) = (between.tokens cs).map (t :: ·) :=
  tokens_cons (by rw [step, start, hc]) cs

theorem Spells.cons (hc : punctuation? c = some t) (hcs : Spells cs ts) :
    Spells (c :: cs) (t :: ts) := by
  intro rest hrest
  rw [List.cons_append, tokens_punctuation hc, hcs hrest, Option.map_map]
  rfl

theorem Spells.append_cons (hcs : Spells cs ts) (hc : punctuation? c = some t)
    (hds : Spells ds us) : Spells (cs ++ c :: ds) (ts ++ t :: us) := by
  intro rest hrest
  rw [List.append_assoc, List.cons_append, hcs (breaks_cons hc _), ← List.cons_append,
    hds.cons hc hrest, Option.map_map]
  simp only [Function.comp_def, List.append_assoc]

/-- Brackets around a text. -/
theorem Spells.enclose (hc : punctuation? c = some t) (hcs : Spells cs ts)
    (hd : punctuation? d = some u) : Spells (c :: (cs ++ [d])) (t :: (ts ++ [u])) :=
  (hcs.append_cons hd spells_nil).cons hc

theorem Spells.intercalate {α : Type} {text : α → List Char} {read : α → List Token} {as : List α}
    (has : ∀ a ∈ as, Spells (text a) (read a)) :
    Spells ([','].intercalate (as.map text)) ([.comma].intercalate (as.map read)) := by
  induction as with
  | nil => exact spells_nil
  | cons a as ih =>
    have ha := has a List.mem_cons_self
    cases as with
    | nil => simpa using ha
    | cons b as =>
      have hrest := ih fun b hb => has b (List.mem_cons_of_mem _ hb)
      simp only [List.map_cons, List.intercalate_cons_cons] at hrest ⊢
      rw [List.append_assoc, List.append_assoc]
      exact ha.append_cons rfl hrest

/-- No punctuation belongs to a number or a word. -/
theorem not_kept_of_punctuation (hc : punctuation? c = some t) :
    isNumberChar c = false ∧ c.isLower = false := by
  unfold punctuation? at hc
  split at hc <;> first | decide | cases hc

theorem tokens_kept {keep : List Char → Lexer}
    (hread : ∀ d ∈ cs, ∀ read, (keep read).step d = some ([], keep (d :: read)))
    (read rest : List Char) :
    (keep read).tokens (cs ++ rest) = (keep (cs.reverse ++ read)).tokens rest := by
  induction cs generalizing read with
  | nil => rfl
  | cons d cs ih =>
    have hd := hread d List.mem_cons_self read
    rw [List.cons_append, tokens_cons hd, ih fun e he => hread e (List.mem_cons_of_mem _ he)]
    simp

/-- A token that has been kept is complete where something follows that does not belong to it. -/
theorem tokens_done {st : Lexer} (hfinish : st.finish = some [u])
    (hdone : ∀ c t, punctuation? c = some t → st.step c = some ([u, t], between))
    (hrest : Breaks rest) : st.tokens rest = (between.tokens rest).map (u :: ·) := by
  cases rest with
  | nil =>
    rw [Lexer.tokens, hfinish]
    rfl
  | cons c rest =>
    obtain ⟨t, ht⟩ := Option.isSome_iff_exists.1 (hrest c rfl)
    rw [tokens_cons (hdone c t ht), tokens_punctuation ht, Option.map_map]
    rfl

theorem spells_kept {keep : List Char → Lexer} (hstart : start c = some ([], keep [c]))
    (hread : ∀ d ∈ cs, ∀ read, (keep read).step d = some ([], keep (d :: read)))
    (hfinish : (keep (c :: cs).reverse).finish = some [u])
    (hdone : ∀ d t, punctuation? d = some t →
      (keep (c :: cs).reverse).step d = some ([u, t], between)) :
    Spells (c :: cs) [u] := by
  intro rest hrest
  have hbegin : between.step c = some ([], keep [c]) := hstart
  rw [List.cons_append, tokens_cons hbegin, tokens_kept hread,
    ← List.reverse_cons, tokens_done hfinish hdone hrest, Option.map_map]
  rfl

theorem spells_word (hstart : start c = some ([], word [c])) (hcs : ∀ d ∈ cs, d.isLower = true)
    (hword : ofWord? (c :: cs) = some u) : Spells (c :: cs) [u] := by
  refine spells_kept hstart (fun d hd read => ?_) ?_ fun d t ht => ?_
  · rw [step, if_pos (hcs d hd)]
  · rw [finish, List.reverse_reverse, hword]
    rfl
  · simp [step, (not_kept_of_punctuation ht).2, hword, start, ht]

/-- A digit or a minus sign begins a number. -/
theorem start_number (hc : c = '-' ∨ c.isDigit = true) : start c = some ([], number [c]) := by
  rcases hc with rfl | hc
  · rfl
  · have hne : ∀ d : Char, d.isDigit = false → c ≠ d := fun d hd h => by
      rw [h, hd] at hc
      cases hc
    have hnone : punctuation? c = none := by
      unfold punctuation?
      split <;> first | rfl | cases hc
    have hspace : isSpace c = false := by
      simp [isSpace, hne ' ' rfl, hne '\n' rfl, hne '\t' rfl, hne '\r' rfl]
    simp [start, hnone, hspace, hne '"' rfl, hc]

theorem spells_number {n : Number} (hn : n.Written) : Spells n.chars [.number n] := by
  obtain ⟨c, cs, hchars, hfirst⟩ := hn.exists_cons
  have hread := hn.ofChars?_chars
  have hnumber := hn.isNumberChar
  rw [hchars] at hread hnumber ⊢
  refine spells_kept (start_number hfirst) (fun d hd read => ?_) ?_ fun d t ht => ?_
  · rw [step, if_pos (hnumber d (List.mem_cons_of_mem _ hd))]
  · rw [finish, List.reverse_reverse, hread]
    rfl
  · simp [step, (not_kept_of_punctuation ht).1, hread, start, ht]

theorem tokens_silent {st next : Lexer} (hstep : st.step c = some ([], next)) (cs : List Char) :
    st.tokens (c :: cs) = next.tokens cs := by
  rw [tokens_cons hstep]
  exact Option.map_id'

/-- An escape by a letter is one part of the string. -/
theorem tokens_named (hd : named? d = some c) (hne : d ≠ 'u') (read : List Piece)
    (rest : List Char) :
    (string read).tokens ('\\' :: d :: rest) = (string (.char c :: read)).tokens rest := by
  have hescape : (string read).step '\\' = some ([], escape read) := rfl
  have hletter : (escape read).step d = some ([], string (.char c :: read)) := by
    rw [step, if_neg hne, hd]
    rfl
  rw [tokens_silent hescape, tokens_silent hletter]

/-- A control character is escaped by its number. -/
theorem tokens_numbered (hc : c < ' ') (read : List Piece) (rest : List Char) :
    (string read).tokens (['\\', 'u', '0', '0'] ++ Text.hexPair c.toNat ++ rest) =
      (string (.unit c.toNat :: read)).tokens rest := by
  have hlt : c.toNat < 32 := hc
  have hhigh : Text.hexValue? (Nat.digitChar (c.toNat / 16)) = some (c.toNat / 16) :=
    Text.hexValue?_digitChar _ (by omega)
  have hlow : Text.hexValue? (Nat.digitChar (c.toNat % 16)) = some (c.toNat % 16) :=
    Text.hexValue?_digitChar _ (by omega)
  have hnumber : 16 * (c.toNat / 16) + c.toNat % 16 = c.toNat := by omega
  have hescape : (string read).step '\\' = some ([], escape read) := rfl
  have hletter : (escape read).step 'u' = some ([], hex read 4 0) := rfl
  have hfirst : (hex read 4 0).step '0' = some ([], hex read 3 0) := rfl
  have hsecond : (hex read 3 0).step '0' = some ([], hex read 2 0) := rfl
  have hthird : (hex read 2 0).step (Nat.digitChar (c.toNat / 16)) =
      some ([], hex read 1 (c.toNat / 16)) := by
    simp [step, hhigh]
  have hfourth : (hex read 1 (c.toNat / 16)).step (Nat.digitChar (c.toNat % 16)) =
      some ([], string (.unit c.toNat :: read)) := by
    simp [step, hlow, hnumber]
  simp only [Text.hexPair, List.cons_append, List.nil_append]
  rw [tokens_silent hescape, tokens_silent hletter, tokens_silent hfirst, tokens_silent hsecond,
    tokens_silent hthird, tokens_silent hfourth]

/-- Each character of a string is read from its escape as one part that stands for it. -/
theorem tokens_escapeChar (c : Char) : ∃ p : Piece, p.Is c ∧ ∀ read rest,
    (string read).tokens (escapeChar c ++ rest) = (string (p :: read)).tokens rest := by
  unfold escapeChar
  -- seven characters are escaped by a letter
  iterate 7
    split
    · subst_vars
      exact ⟨.char _, .inl rfl, tokens_named rfl (by decide)⟩
  split
  · rename_i hc
    exact ⟨.unit c.toNat, .inr ⟨rfl, hc⟩, tokens_numbered hc⟩
  · refine ⟨.char c, .inl rfl, fun read rest => tokens_silent ?_ _⟩
    simp_all [step]

/-- The characters of a string are read from their escapes. -/
theorem tokens_escaped (cs : List Char) : ∃ ps, joinPieces ps = some cs ∧ ∀ read rest,
    (string read).tokens (cs.flatMap escapeChar ++ rest) =
      (string (ps.reverse ++ read)).tokens rest := by
  induction cs with
  | nil => exact ⟨[], rfl, fun _ _ => rfl⟩
  | cons c cs ih =>
    obtain ⟨p, hp, hfirst⟩ := tokens_escapeChar c
    obtain ⟨ps, hps, hrest⟩ := ih
    refine ⟨p :: ps, joinPieces_cons hp hps, fun read rest => ?_⟩
    rw [List.flatMap_cons, List.append_assoc, hfirst, hrest]
    simp

theorem spells_string (s : String) : Spells (stringText s).toList [.string (some s)] := by
  intro rest hrest
  obtain ⟨ps, hps, hread⟩ := tokens_escaped s.toList
  have hquote : between.step '"' = some ([], string []) := rfl
  have hend : (string ps.reverse).step '"' = some ([.string (some s)], between) := by
    rw [step, if_pos rfl, List.reverse_reverse, hps, Option.map_some, String.ofList_toList]
  rw [stringText, String.toList_ofList, List.cons_append, List.cons_append, List.append_assoc,
    tokens_silent hquote, hread, List.append_nil]
  exact tokens_cons hend rest

end Lexer

/-- The text of a document is made of its tokens. -/
theorem Written.spells {j : Json} (hj : j.Written) : Lexer.Spells j.chars j.tokens := by
  induction hj with
  | null => exact Lexer.spells_word rfl (by simp) rfl
  | bool b =>
    cases b with
    | true => exact Lexer.spells_word rfl (by simp) rfl
    | false => exact Lexer.spells_word rfl (by simp) rfl
  | number hn => exact Lexer.spells_number hn
  | string s => exact Lexer.spells_string s
  | array _ ih =>
    rw [chars, tokens, charsAll_eq_map, tokensAll_eq_map]
    exact .enclose rfl (.intercalate ih) rfl
  | @object members names _ ih =>
    rw [chars, tokens, charsMembers_eq_map, tokensMembers_eq_map]
    refine .enclose rfl (.intercalate fun m hm => ?_) rfl
    obtain ⟨name, hname⟩ := Option.isSome_iff_exists.1 (names m hm)
    rw [memberChars, memberTokens, hname]
    exact (Lexer.spells_string name).append_cons rfl (ih m hm)

theorem Written.tokens?_chars {j : Json} (hj : j.Written) :
    tokens? (String.ofList j.chars) = some j.tokens := by
  have hend : Lexer.Breaks [] := fun _ hc => by cases hc
  have hread := hj.spells hend
  rw [List.append_nil] at hread
  rw [tokens?, String.toList_ofList, hread]
  simp [Lexer.tokens, Lexer.finish]

namespace Parser

/-- Where a value is waited for, the reader takes the document from its tokens, whatever containers
it is in. -/
def Reads (j : Json) : Prop :=
  ∀ stack ts, (value stack).run (j.tokens ++ ts) = (after j stack).run ts

theorem run_cons (p : Parser) (t : Token) (ts : List Token) :
    p.run (t :: ts) = (p.step t).bind fun q => q.run ts := by
  cases p with
  | after v stack => cases stack <;> rfl
  | _ => rfl

theorem run_step {p q : Parser} {t : Token} (hstep : p.step t = some q) (ts : List Token) :
    p.run (t :: ts) = q.run ts := by
  rw [run_cons, hstep]
  rfl

/-- The first item of an array is read like any other. -/
theorem run_firstItem (j : Json) (stack : List Frame) (ts : List Token) :
    (firstItem stack).run (j.tokens ++ ts) = (value (.array [] :: stack)).run (j.tokens ++ ts) := by
  cases j <;> rw [tokens] <;> rfl

theorem run_items {items : List Json} (hitems : ∀ j ∈ items, Reads j) (v : Json)
    (before : List Json) (stack : List Frame) (ts : List Token) :
    (after v (.array before :: stack)).run
        (items.flatMap (fun j => .comma :: j.tokens) ++ .closeArray :: ts) =
      (after (.array ((v :: before).reverse ++ items)) stack).run ts := by
  induction items generalizing v before with
  | nil =>
    rw [List.append_nil]
    exact run_step rfl ts
  | cons j items ih =>
    rw [List.flatMap_cons, List.append_assoc, List.cons_append, run_step rfl,
      hitems j List.mem_cons_self, ih fun k hk => hitems k (List.mem_cons_of_mem _ hk)]
    simp

theorem run_members {members : List (Option String × Json)} (hmembers : ∀ m ∈ members, Reads m.2)
    (v : Json) (before : List (Option String × Json)) (name : Option String) (stack : List Frame)
    (ts : List Token) :
    (after v (.object before name :: stack)).run
        (members.flatMap (fun m => .comma :: memberTokens m) ++ .closeObject :: ts) =
      (after (.object (((name, v) :: before).reverse ++ members)) stack).run ts := by
  induction members generalizing v before name with
  | nil =>
    rw [List.append_nil]
    exact run_step rfl ts
  | cons m members ih =>
    rw [List.flatMap_cons, List.append_assoc, List.cons_append, run_step rfl, memberTokens,
      List.cons_append, run_step rfl, List.cons_append, run_step rfl, hmembers m List.mem_cons_self,
      ih fun n hn => hmembers n (List.mem_cons_of_mem _ hn)]
    simp

end Parser

/-- A document is read from its tokens. -/
theorem Written.reads {j : Json} (hj : j.Written) : Parser.Reads j := by
  intro stack ts
  induction hj generalizing stack ts with
  | @array items _ ih =>
    rw [tokens, tokensAll_eq_map, List.cons_append, Parser.run_step rfl, List.append_assoc]
    cases items with
    | nil => exact Parser.run_step rfl ts
    | cons j items =>
      rw [List.map_cons, intercalate_cons, List.append_assoc, Parser.run_firstItem,
        ih j List.mem_cons_self, List.flatMap_map]
      exact Parser.run_items (fun k hk => ih k (List.mem_cons_of_mem _ hk)) j [] stack ts
  | @object members _ _ ih =>
    rw [tokens, tokensMembers_eq_map, List.cons_append, Parser.run_step rfl, List.append_assoc]
    cases members with
    | nil => exact Parser.run_step rfl ts
    | cons m members =>
      rw [List.map_cons, intercalate_cons, List.append_assoc, memberTokens, List.cons_append,
        Parser.run_step rfl, List.cons_append, Parser.run_step rfl, ih m List.mem_cons_self,
        List.flatMap_map]
      exact Parser.run_members (fun n hn => ih n (List.mem_cons_of_mem _ hn)) m.2 [] m.1 stack ts
  | _ => rw [tokens]; exact Parser.run_step rfl ts

/-- A document is read from its text. -/
theorem Written.parse?_chars {j : Json} (hj : j.Written) :
    parse? (String.ofList j.chars) = some j := by
  have hread := hj.reads [] []
  rw [List.append_nil] at hread
  rw [parse?, hj.tokens?_chars, Option.bind_some, hread]
  rfl

mutual

/-- How many containers of a document lie inside one another. -/
def depth : Json → Nat
  | .array items => depthAll items + 1
  | .object members => depthMembers members + 1
  | _ => 0

def depthAll : List Json → Nat
  | [] => 0
  | j :: js => max (depth j) (depthAll js)

def depthMembers : List (Option String × Json) → Nat
  | [] => 0
  | (_, j) :: ms => max (depth j) (depthMembers ms)

end

/-- How deep a text nests. A text that holds no document does not nest. -/
def nesting (s : String) : Nat := (parse? s).elim 0 depth

theorem enter_eq (room : Nat) : enter room = if 1 < room then some (room - 1) else none := by
  match room with
  | 0 => rfl
  | 1 => rfl
  | room + 2 => rw [enter, if_pos (by omega)]; rfl

end ResultCache.Json
