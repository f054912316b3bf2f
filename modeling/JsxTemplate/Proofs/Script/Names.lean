import Mathlib.Data.List.DropRight
import JsxTemplate.Proofs.Text.Ranges
import JsxTemplate.Script.Shape

/-!
# Names as expressions

A script that is a plain name is taken for a variable without being read. Reading gives the same answer for
the words that a script can use for variables (`isMember_iff_reads_as_member`), but not for those that are
taken by the language.
-/

namespace JsxTemplate.Script

/-- Whether a script is read as a variable or a property of an object. -/
def readsAsMember (script : String) : Bool :=
  (readWhole script).any fun t =>
    match t.unwrapped.kind with
    | .reference _ | .member => true
    | _ => false

/-- Whether a text is a word that a script can use for a variable. -/
def isVariableName (s : String) : Bool :=
  s.toList.head?.any startsWord && s.toList.all continuesWord && !isReservedWord s && s != "await"

namespace Reader

variable {α β : Type} {s s' : ReaderState} {w : String} {g : Grammar}

theorem run_bind (x : Reader α) (f : α → Reader β) (s : ReaderState) :
    (x >>= f) s = (x s).bind fun r => f r.1 r.2 := rfl

theorem run_pure (a : α) (s : ReaderState) : (pure a : Reader α) s = some (a, s) := rfl

theorem run_get (s : ReaderState) : (get : Reader ReaderState) s = some (s, s) := rfl

theorem run_lift (o : Option α) (s : ReaderState) :
    (liftM o : Reader α) s = o.bind fun a => some (a, s) := rfl

theorem run_token (s : ReaderState) : token s = some (s.token, s) := rfl

theorem run_start (s : ReaderState) : start s = some (s.here.offset, s) := rfl

theorem run_isMark (mark : String) (s : ReaderState) : isMark mark s = some (s.token == .mark mark, s) := rfl

theorem run_isWord (word : String) (s : ReaderState) : isWord word s = some (s.token == .word word, s) := rfl

theorem run_aheadIs (r : Reader Bool) (s : ReaderState) :
    aheadIs r s = some ((r s).map Prod.fst == some true, s) := rfl

/-- Nothing is added to a value if the first step adds nothing. -/
theorem iterate_of_end {step : α → Reader (Option α)} {a : α} (hbound : 0 < s.bound)
    (hstep : step a s = some (none, s)) : iterate step a s = some (a, s) := by
  obtain ⟨n, hn⟩ := Nat.exists_eq_add_of_lt hbound
  simp only [iterate, run_bind, run_get, Option.bind_some, hn, Nat.zero_add]
  simp only [iterateUpTo, run_bind, hstep, Option.bind_some, run_pure]

/-! ## The rules at a variable -/

/-- Whether the current token is the last one of the script, and a word that can be a variable. -/
structure AtVariable (w : String) (s s' : ReaderState) : Prop where
  token : s.token = .word w
  unreserved : isReservedWord w = false
  await : w ≠ "await"
  around : s.around = .outermost
  advance : advance s = some ((), s')
  ends : s'.token = .eof
  bound : 0 < s'.bound

section

variable (h : AtVariable w s s')

include h

theorem reference_of_variable :
    reference s = some (.node (.reference w) ⟨s.here.offset, s'.lastStop⟩ [], s') := by
  have hfault : ((w == "await" && s.around.inAsync) || (w == "yield" && s.around.inGenerator)) = false := by
    simp [h.around, h.await, Surroundings.outermost]
  simp only [reference, variableName, finish, faultIf, run_bind, run_start, run_token, run_get, run_pure,
    Option.bind_some, h.token, h.unreserved, h.advance, hfault, Bool.false_eq_true, if_false]

theorem primary_of_variable : primary g s = reference s := by
  simp only [primary, run_bind, run_token, Option.bind_some, h.token]
  generalize ht : Token.word w = t
  split
  all_goals first | rfl | cases ht
  all_goals first | exact absurd h.unreserved (by decide) | skip
  -- The word `async` is a variable unless a function follows.
  simp only [run_aheadIs, run_bind, run_isWord, Option.bind_some, h.advance, h.ends]
  rfl

theorem accessed_of_variable : accessed g s = reference s := by
  have hnew : (Token.word w == .word "new") = false := beq_eq_false_iff_ne.mpr fun hw => by
    cases hw
    exact absurd h.unreserved (by decide)
  have hends : ∀ a, accessStep g s.here.offset true a s' = some (none, s') := fun a => by
    simp only [accessStep, run_bind, run_token, Option.bind_some, h.ends, run_pure]
  simp only [accessed, run_bind, run_start, run_isWord, run_pure, Option.bind_some, h.token, hnew,
    primary_of_variable h, reference_of_variable h, iterate_of_end h.bound (hends _), Bool.false_eq_true, if_false]

theorem operand_of_variable : operand g s = reference s := by
  have hawait : (Token.word w == .word "await") = false := by simpa using h.await
  have hmarks : ∀ marks, isMarkOf marks s' = some (false, s') := fun marks => by
    simp only [isMarkOf, run_bind, run_token, Option.bind_some, h.ends, run_pure]
  simp only [operand, run_bind, run_start, run_token, Option.bind_some, h.token]
  generalize ht : Token.word w = t
  split
  all_goals first | (cases ht; done) | (cases ht; exact absurd h.unreserved (by decide)) | subst ht
  simp only [run_bind, run_get, run_pure, Option.bind_some, hawait, Bool.false_and, accessed_of_variable h,
    reference_of_variable h, hmarks, onNewLine, Bool.false_eq_true, if_false]

theorem operation_of_variable (hg : g.operand s = reference s) (least : Nat) :
    operation g least s = reference s := by
  have hprivate : (Token.word w == .privateWord) = false := by simp
  have hangle : (Token.eof == .mark ">") = false := by decide
  have hends : ∀ a, operatorStep g s.here.offset least a s' = some (none, s') := fun a => by
    simp only [operatorStep, run_bind, run_isMark, run_token, run_pure, Option.bind_some, h.ends, hangle,
      strength?, Bool.false_eq_true, if_false]
  simp only [operation, run_bind, run_start, run_token, Option.bind_some, h.token, hprivate, hg,
    reference_of_variable h, iterate_of_end h.bound (hends _), Bool.false_eq_true, if_false]

theorem arrowHere_of_variable : arrowHere s = some (.no, s) := by
  have hmark : ∀ m, (Token.word w == .mark m) = false := fun m => by simp
  have heof : ∀ m, (Token.eof == .mark m) = false := fun m => by simp
  simp only [arrowHere, run_bind, run_isMark, run_isWord, Option.bind_some, h.token, hmark,
    Bool.false_eq_true, if_false]
  split
  · simp only [lookahead, onNewLine, run_bind, run_get, run_pure, Option.bind_some, h.advance]
    split
    · rfl
    · simp only [run_bind, run_isMark, run_pure, Option.bind_some, Option.map_some, Option.getD_some, h.ends,
        heof, Bool.false_eq_true, if_false]
  · rfl

theorem startsSimpleArrow_of_variable : startsSimpleArrow s = some (false, s) := by
  have heof : (Token.eof == .mark "=>") = false := by decide
  have hno : (some false == some true) = false := rfl
  simp only [startsSimpleArrow, isVariable, run_bind, run_isMark, run_isWord, run_token, run_aheadIs, run_pure,
    Option.bind_some, Option.map_some, h.token, h.unreserved, h.advance, h.ends, heof, hno, Bool.not_false,
    Bool.not_true, Bool.false_eq_true, if_false]
  split
  · rfl
  · simp only [run_aheadIs, run_bind, run_token, run_get, run_pure, onNewLine, Option.bind_some,
      Option.map_some, h.advance, h.ends, hno, Bool.not_false, Bool.or_true, if_true]

theorem assignment_of_variable (hg : g.operation 1 s = reference s) (allowResult : Bool) :
    assignment g allowResult s = reference s := by
  have hyield : ((Token.word w == .word "yield") && s.around.inGenerator) = false := by
    simp [h.around, Surroundings.outermost]
  simp only [assignment, arrowFunction?, run_bind, run_start, run_isWord, run_get, run_token, run_pure,
    Option.bind_some, h.token, hyield, arrowHere_of_variable h, startsSimpleArrow_of_variable h, hg,
    reference_of_variable h, h.ends, Bool.false_eq_true, if_false]

theorem expression_of_variable (hg : g.assignment true s = reference s) : expression g s = reference s := by
  have hcomma : (Token.eof == .mark ",") = false := by decide
  simp only [expression, run_bind, run_start, run_isMark, run_pure, Option.bind_some, hg,
    reference_of_variable h, h.ends, hcomma, Bool.false_eq_true, if_false]

theorem grammar_of_variable (n : Nat) : (grammar (n + 4)).expression s =
    some (.node (.reference w) ⟨s.here.offset, s'.lastStop⟩ [], s') := by
  have hoperation : (grammar (n + 2)).operation 1 s = reference s :=
    operation_of_variable h (operand_of_variable h) 1
  have hassignment := assignment_of_variable h hoperation true
  exact (expression_of_variable (g := grammar (n + 3)) h hassignment).trans (reference_of_variable h)

end

end Reader

/-! ## Tokens -/

theorem skipGaps_of_startsWord {c : Char} (h : startsWord c = true) (cs : List Char) (o : Nat) :
    skipGaps .code false (c :: cs) o = some (false, ⟨c :: cs, o⟩) := by
  have hother : ∀ n ∈ [9, 11, 12, 32, 0x85, 0xA0, 0x1680] ++ List.range' 0x2000 12 ++
      [0x2028, 0x2029, 0x202F, 0x205F, 0x3000, 0xFEFF], c.toNat ≠ n := by
    have hgaps : ∀ n ∈ [9, 11, 12, 32, 0x85, 0xA0, 0x1680] ++ List.range' 0x2000 12 ++
        [0x2028, 0x2029, 0x202F, 0x205F, 0x3000, 0xFEFF], startsWord (Char.ofNat n) = false := by
      decide +kernel
    rintro n hn rfl
    simpa [Char.ofNat_toNat, h] using hgaps c.toNat hn
  simp only [List.mem_append, List.mem_range'_1, List.mem_cons, List.not_mem_nil, or_false] at hother
  have hmark : ∀ a : Char, startsWord a = false → c ≠ a := by
    rintro a ha rfl
    cases h.symm.trans ha
  have hline : endsLine c = false := by
    simp [endsLine, hmark '\n' (by decide), hmark '\r' (by decide), hother]
  have hgap : isGap c = false := by
    refine Bool.eq_false_iff.mpr fun hgap => hother c.toNat ?_ rfl
    simp only [isGap, Bool.or_eq_true, Bool.and_eq_true, beq_iff_eq, decide_eq_true_eq] at hgap
    omega
  simp [skipGaps, hline, hgap, hmark '/' (by decide)]

theorem readWord_of_continuing {cs : List Char} (hcs : cs.all continuesWord = true) {fuel : Nat}
    (hfuel : cs.length < fuel) (o : Nat) :
    readWord fuel false cs o = some (cs, ⟨[], o + Text.byteLength cs⟩) := by
  induction cs generalizing fuel o with
  | nil =>
    obtain ⟨fuel, rfl⟩ := Nat.exists_eq_add_of_lt hfuel
    rfl
  | cons c cs ih =>
    obtain ⟨hc, hcs⟩ := Bool.and_eq_true_iff.mp hcs
    obtain ⟨fuel, rfl⟩ := Nat.exists_eq_add_of_lt hfuel
    have hrest := ih hcs (by omega : cs.length < cs.length + 1 + fuel) (o + c.utf8Size)
    rw [Nat.add_assoc o] at hrest
    simp [readWord, hc, hrest, Text.byteLength]

theorem readToken_of_word {c : Char} {cs : List Char} (hc : startsWord c = true)
    (hcs : cs.all continuesWord = true) (o : Nat) : readToken (c :: cs) o =
      some (.word (String.ofList (c :: cs)), ⟨[], o + Text.byteLength (c :: cs)⟩) := by
  have hrest := readWord_of_continuing hcs (Nat.lt_succ_self _) (o + c.utf8Size)
  rw [Nat.add_assoc o] at hrest
  simp [readToken, readWord, hc, hrest, Text.byteLength]

/-! ## Whole scripts -/

theorem readWhole_of_variable {s : String} (h : isVariableName s = true) :
    readWhole s = some (.node (.reference s) ⟨0, Text.byteLength s.toList⟩ []) := by
  simp only [isVariableName, Bool.and_eq_true, Bool.not_eq_true', bne_iff_ne] at h
  obtain ⟨⟨⟨hc, hcs⟩, hreserved⟩, hawait⟩ := h
  obtain ⟨c, cs, hs⟩ : ∃ c cs, s.toList = c :: cs := by
    refine List.exists_cons_of_ne_nil fun hs => ?_
    simp [hs] at hc
  let s₁ : ReaderState := { ReaderState.ofInput ⟨s.toList, 0⟩ with
    token := .word s
    rest := ⟨[], Text.byteLength s.toList⟩ }
  let s₂ : ReaderState := { s₁ with
    token := .eof
    here := s₁.rest
    lastStop := Text.byteLength s.toList }
  have hfirst : Reader.advance (ReaderState.ofInput ⟨s.toList, 0⟩) = some ((), s₁) := by
    have hc : startsWord c = true := by simpa [hs] using hc
    have hcs : cs.all continuesWord = true := by
      rw [hs, List.all_cons, Bool.and_eq_true] at hcs
      exact hcs.2
    have htoken := readToken_of_word hc hcs 0
    rw [← hs, String.ofList_toList, Nat.zero_add] at htoken
    have hskip := skipGaps_of_startsWord hc cs 0
    rw [← hs] at hskip
    simp only [Reader.advance, Reader.run_bind, Reader.run_get, Reader.run_lift, Option.bind_some,
      ReaderState.ofInput, hskip, htoken]
    rfl
  have hat : Reader.AtVariable s s₁ s₂ := ⟨rfl, hreserved, hawait, rfl, rfl, rfl, Nat.succ_pos _⟩
  have hbound : 8 * (ReaderState.ofInput ⟨s.toList, 0⟩).bound = 8 * s.toList.length + 12 + 4 := by
    simp only [ReaderState.ofInput]
    omega
  have hread := Reader.grammar_of_variable hat (8 * s.toList.length + 12)
  have hprefix : Text.byteLength (Text.trimRight s.toList) ≤ Text.byteLength s.toList := by
    obtain ⟨rest, hrest⟩ := List.rdropWhile_prefix Text.isBlank (l := s.toList)
    have hsum := Text.byteLength_append (Text.trimRight s.toList) rest
    rw [show Text.trimRight s.toList ++ rest = s.toList from hrest] at hsum
    omega
  have hexpression : readExpression s = some (.node (.reference s) ⟨0, Text.byteLength s.toList⟩ []) := by
    simp only [readExpression, readWith, Reader.run_bind, hfirst, hbound, hread, Option.bind_some]
    rfl
  rw [readWhole, hexpression]
  exact if_pos (decide_eq_true hprefix)

/-- A script is taken for a variable or a property exactly if it is read as one, unless it is a plain name that
no variable can have; those that are taken by the language are not read as one. -/
theorem isMember_iff_reads_as_member (script : String) :
    (Text.trim script ≠ "undefined" →
      (Text.isPlainName (Text.trim script) = true → isVariableName (Text.trim script) = true) →
      isMember script = readsAsMember (Text.trim script)) ∧
    (script ∈ "await" :: reservedWords → isMember script = true ∧ readsAsMember script = false) := by
  have htaken : ∀ word ∈ "await" :: reservedWords, isMember word = true ∧ readsAsMember word = false := by
    decide +kernel
  refine ⟨fun hdefined hvariable => ?_, htaken script⟩
  rw [isMember]
  split
  · next hplain =>
    have hread := readWhole_of_variable (hvariable hplain)
    rw [readsAsMember, hread, Option.any_some]
    exact bne_iff_ne.mpr hdefined
  · rfl

/-- A name between blanks is read as the variable it is taken for. -/
theorem isMember_iff_reads_as_member_name :
    Text.trim " row " ≠ "undefined" ∧
      (Text.isPlainName (Text.trim " row ") = true → isVariableName (Text.trim " row ") = true) ∧
      isMember " row " = readsAsMember (Text.trim " row ") ∧
      "this" ∈ "await" :: reservedWords ∧ isMember "this" = true ∧ readsAsMember "this" = false := by
  have hdefined : Text.trim " row " ≠ "undefined" := by decide +kernel
  have hvariable : isVariableName (Text.trim " row ") = true := by decide +kernel
  have hword : "this" ∈ "await" :: reservedWords := by decide
  exact ⟨hdefined, fun _ => hvariable, (isMember_iff_reads_as_member _).1 hdefined fun _ => hvariable, hword,
    (isMember_iff_reads_as_member _).2 hword⟩

/-- A literal is taken for a variable, although it is read as a literal. -/
theorem literal_taken_for_member :
    isMember "true" = true ∧ readsAsMember "true" = false ∧ (readWhole "true").any (·.kind == .boolean) = true := by
  decide +kernel

end JsxTemplate.Script
