import SmalltalkJit.Compiler.Scanning

/-! # Where a quotation ends

The loops over strings and comments stop behind the closing quote or at the NUL, and
`readToken` takes a NUL for a quotation that was not closed. One that closes at the very
end of the source is reported so too.
-/
namespace SmalltalkJit.Tokenizing
open ByteStream List Option

def doubled (quote : Byte) (contents : List Byte) : List Byte :=
  contents.flatMap fun ch => if ch = quote then [quote,quote] else [ch]

/-- The quotation has a closing quote, and this is what stands before and behind it. -/
structure Closes (quote : Byte) (body contents rest : List Byte) : Prop where
  body : body = doubled quote contents ++ quote :: rest
  rest : rest.head? ≠ some quote

def Unclosed (quote : Byte) (body : List Byte) : Prop := ∀ contents rest, ¬ Closes quote body contents rest

section
variable {quote ch : Byte} {body contents rest : List Byte}

theorem Closes.cons (h : Closes quote body contents rest) (hch : ch ≠ quote) :
    Closes quote (ch :: body) (ch :: contents) rest :=
  ⟨by simp [doubled,hch,h.body],h.rest⟩

theorem Closes.cons_quote (h : Closes quote body contents rest) :
    Closes quote (quote :: quote :: body) (quote :: contents) rest :=
  ⟨by simp [doubled,h.body],h.rest⟩

theorem Closes.quotation_eq (hq : quote ≠ 0) (he : Ended body) (h : Closes quote body contents rest) :
    quotation quote body = (contents,rest) := by
  obtain ⟨rfl,hr⟩ := h
  induction contents with
  | nil =>
    cases rest with
    | nil => exact absurd (he.tail hq) fun ⟨_,_,h⟩ => by simp at h
    | cons ch rest => exact (quotation_quote hq ch rest).trans (if_neg (by simpa using hr))
  | cons ch _ ih =>
    by_cases hch : ch = quote
    · subst hch
      simp only [doubled,flatMap_cons,if_true,cons_append,nil_append] at he ih ⊢
      rw [quotation_quote hq,if_pos rfl,ih ((he.tail hq).tail hq)]
    · simp only [doubled,flatMap_cons,if_neg hch,cons_append,nil_append] at he ih ⊢
      have hne : ch ≠ 0 := by
        rintro rfl
        simpa using he.rest_eq_nil
      rw [quotation_other hne hch,ih (he.tail hne)]

theorem Unclosed.quotation_eq (hq : quote ≠ 0) (he : Ended body) (h : Unclosed quote body) :
    (quotation quote body).2 = [0] := by
  induction hn : body.length using Nat.strong_induction_on generalizing body with
  | _ _ ih =>
    cases body with
    | nil => exact absurd he fun ⟨_,_,h⟩ => by simp at h
    | cons ch body =>
      obtain ⟨rfl,rfl⟩ | ⟨hne,ht⟩ := he.cases
      · rw [quotation_zero]
      by_cases hch : ch = quote
      · subst hch
        cases body with
        | nil => exact absurd ht fun ⟨_,_,h⟩ => by simp at h
        | cons second body =>
          by_cases hs : second = ch
          · subst hs
            rw [quotation_quote hq,if_pos rfl]
            exact ih _ (by rw [← hn,length_cons,length_cons]; omega) (ht.tail hne) (fun _ _ hc => h _ _ hc.cons_quote) rfl
          · exact absurd ⟨rfl,by simpa using hs⟩ (h [] (second :: body))
      · rw [quotation_other hne hch]
        exact ih _ (by simp [← hn]) ht (fun _ _ hc => h _ _ (hc.cons hch)) rfl

/-- The loop stops at the NUL in two cases, and `readToken` does not tell them apart. -/
theorem quotation_end_iff (hq : quote ≠ 0) (he : Ended body) :
    (quotation quote body).2 = [0] ↔ Unclosed quote body ∨ ∃ contents, Closes quote body contents [0] := by
  refine ⟨fun hend => ?_,fun h => ?_⟩
  · by_cases ho : Unclosed quote body
    · exact .inl ho
    · obtain ⟨contents,rest,hc⟩ : ∃ contents rest, Closes quote body contents rest := by simpa [Unclosed] using ho
      rw [hc.quotation_eq hq he] at hend
      exact .inr ⟨contents,hend ▸ hc⟩
  · rcases h with ho | ⟨contents,hc⟩
    · exact ho.quotation_eq hq he
    · rw [hc.quotation_eq hq he]

end

/-- The token is the string that starts here, or says that no quote closes it. -/
structure StringRecognised (r : Reader) (o : Option (Scan × Token)) : Prop where
  closed : ∀ contents rest, Closes 39 r.rest contents rest → ∃ s c, o = some (s,c) ∧
    s.token.type = .string ∧ s.token.content = contents ∧ s.reader.text = rest
  unclosed : Unclosed 39 r.rest → ∃ s c, o = some (s,c) ∧ s.token.type = .unclosedString

/-- The scan goes on behind the comment that starts here, or the token says that no quote closes it. -/
structure CommentRecognised (depth : ℕ) (r : Reader) (token : Token) (o : Option (Scan × Token)) : Prop where
  closed : ∀ contents rest, Closes 34 r.rest contents rest → ∃ r' c t, o = readToken depth r' c t true ∧
    c.type = .comment ∧ c.content = contents ∧ r'.text = rest ∧ t.contentSize = token.contentSize
  unclosed : Unclosed 34 r.rest → ∃ s c, o = some (s,c) ∧ s.token.type = .unclosedComment

section
variable (depth : ℕ) {r : Reader} (comment : Token) {token : Token} (separated : Bool)

theorem skipWhile_of_not (h : p r.ch = false) : skipWhile p r = some r := by simp [skipWhile,skipRounds,h]

theorem readToken_string (h : Ended r.text) (hch : r.ch = 39) (ht : 0 < token.contentSize) :
    ∃ s c, readToken (depth+1) r comment token separated = some (s,c) ∧
      s.token.content = (quotation 39 r.rest).1 ∧ s.reader.text = (quotation 39 r.rest).2 ∧ Ended s.reader.text ∧
      s.token.type = if s.reader.ch = 0 then .unclosedString else .string := by
  have hm : findMark r marks = some none := findMark_none (by rw [hch]; decide)
  have hs : skipWhile isSeparator r = some r := skipWhile_of_not (by rw [hch]; decide)
  rw [readToken,hs]
  simp only [bind_eq_bind,bind_some,if_neg (show r.ch ≠ 34 by rw [hch]; decide),readWord,hm,if_pos hch]
  obtain ⟨r',t,hre,hr,hc,hte,he,-⟩ := readString_some (s := ⟨r,_⟩) (⟨h,Nat.zero_le _,ht⟩ : Ready ⟨r,{ token with
      content := [], isSeparated := separated || isSeparator r.ch, position := r.position
      line := r.line, column := r.column-1 }⟩) (by rw [hch]; decide)
  have hr' : Room { t with type := if r'.ch = 0 then .unclosedString else .string } := ⟨hr.fits,hr.sized⟩
  obtain ⟨t',hter,-,hty,hc'⟩ := hr'.terminate
  rw [hre]
  simp only [bind_some,hter]
  exact ⟨_,_,rfl,hc'.trans hc,hte,he,hty⟩

theorem stringRecognised_iff (h : Ended r.text) (hch : r.ch = 39) (hto : 0 < token.contentSize) :
    StringRecognised r (readToken (depth+1) r comment token separated) ↔
      ∀ contents, ¬ Closes 39 r.rest contents [0] := by
  obtain ⟨s,c,hre,hcon,ht,he,hty⟩ := readToken_string depth comment separated h hch hto
  have hr : Ended r.rest := h.tail (by rw [hch]; decide)
  rw [hre]
  refine ⟨fun hrec contents hc => ?_,fun hl => ⟨fun contents rest hc => ?_,fun ho => ?_⟩⟩
  · obtain ⟨_,_,heq,hs,-,hend⟩ := hrec.closed _ _ hc
    cases heq
    rw [hty,if_pos (List.cons.inj hend).1] at hs
    cases hs
  · rw [hc.quotation_eq (by decide) hr] at hcon ht
    refine ⟨s,c,rfl,hty.trans (if_neg fun hz => ?_),hcon,ht⟩
    rw [Reader.text,hz] at he ht
    rw [he.rest_eq_nil] at ht
    obtain rfl : [0] = rest := ht
    exact hl _ hc
  · rw [ho.quotation_eq (by decide) hr] at ht
    exact ⟨s,c,rfl,hty.trans (if_pos (List.cons.inj ht).1)⟩

theorem readToken_end (hend : r.text = [0]) (ht : 0 < token.contentSize) :
    ∃ s c, readToken (depth+1) r comment token separated = some (s,c) ∧ s.token.type = .endOfInput := by
  have hch : r.ch = 0 := (List.cons.inj hend).1
  have hm : findMark r marks = some none := findMark_none (by rw [hch]; decide)
  have hs : skipWhile isSeparator r = some r := skipWhile_of_not (by rw [hch]; decide)
  have hr : Room { token with
      type := .endOfInput, content := [], isSeparated := separated || isSeparator r.ch, position := r.position
      line := r.line, column := r.column-1 } := ⟨Nat.zero_le _,ht⟩
  obtain ⟨t,hte,-,hty,-⟩ := hr.terminate
  rw [readToken,hs]
  simp only [bind_eq_bind,bind_some,readWord,hm,if_neg (show r.ch ≠ 34 by rw [hch]; decide),
    if_neg (show r.ch ≠ 39 by rw [hch]; decide),if_pos hch,hte]
  exact ⟨_,_,rfl,hty⟩

theorem commentRecognised_iff (h : Ended r.text) (hch : r.ch = 34) (hco : 0 < comment.contentSize)
    (hto : 0 < token.contentSize) (hd : r.rest.length ≤ depth) :
    CommentRecognised depth r token (readToken (depth+1) r comment token separated) ↔
      (∀ contents, ¬ Closes 34 r.rest contents [0]) ∧
      (Unclosed 34 r.rest → (quotation 34 r.rest).1.length ≤ token.contentSize) := by
  have hr : Ended r.rest := h.tail (by rw [hch]; decide)
  have hend_iff := @quotation_end_iff 34 _ (by decide) hr
  obtain ⟨r',hte,-,hlt,hre⟩ := readToken_comment depth separated
    (skipWhile_of_not (by rw [hch]; decide)) h hch hco hto
  generalize readToken (depth+1) r comment token separated = o at hre ⊢
  -- a comment that is closed by the last character would be followed by the end of the input
  have hl : ∀ {t c}, o = some (⟨r',t⟩,c) ∧ t.type = .unclosedComment ∨ o = none →
      CommentRecognised depth r token o → ∀ contents, ¬ Closes 34 r.rest contents [0] := by
    intro t c ho hrec contents hc
    obtain ⟨r'',c',t',heq,-,-,hend,hs⟩ := hrec.closed _ _ hc
    obtain ⟨depth,rfl⟩ : ∃ d, depth = d+1 := ⟨depth-1,by omega⟩
    obtain ⟨s,c'',hread,hty⟩ := readToken_end depth c' true hend (hs ▸ hto)
    rw [heq,hread] at ho
    rcases ho with ⟨hso,hu⟩ | hn
    · cases hso
      cases hty.symm.trans hu
    · cases hn
  cases hre with
  | long hend hs =>
    refine ⟨fun hrec => ⟨hl (t := token) (c := comment) (.inr rfl) hrec,fun hop => ?_⟩,fun ⟨hcl,hf⟩ => ?_⟩
    · obtain ⟨_,_,hn,-⟩ := hrec.unclosed hop
      cases hn
    · have hop := (hend_iff.mp (hte ▸ hend)).resolve_right fun ⟨_,hc⟩ => hcl _ hc
      exact absurd (hf hop) (Nat.not_le.mpr hs)
  | unclosed hend hs hty =>
    refine ⟨fun hrec => ⟨hl (.inl ⟨rfl,hty⟩) hrec,fun _ => hs⟩,fun ⟨hcl,_⟩ =>
      ⟨fun contents rest hc => ?_,fun _ => ⟨_,_,rfl,hty⟩⟩⟩
    rw [hc.quotation_eq (by decide) hr] at hte
    obtain rfl := hte.symm.trans hend
    exact absurd hc (hcl _)
  | closed hcl hty hcon _ ht =>
    have hnot : ¬ (Unclosed 34 r.rest ∨ ∃ contents, Closes 34 r.rest contents [0]) :=
      fun h => hcl (hte.trans (hend_iff.mpr h))
    refine ⟨fun _ => ⟨fun contents hc => hnot (.inr ⟨contents,hc⟩),fun hop => absurd (.inl hop) hnot⟩,
      fun _ => ⟨fun contents rest hc => ?_,fun hop => absurd (.inl hop) hnot⟩⟩
    rw [hc.quotation_eq (by decide) hr] at hcon hte
    exact ⟨r',_,_,rfl,hty,hcon,hte,ht⟩

/-- A quotation is taken as it was meant unless its closing quote is the last character of the source,
or a comment without one is longer than the token it is copied into. -/
theorem quotations_recognised_iff (h : Ended r.text) (hcomment : 0 < comment.contentSize)
    (htoken : 0 < token.contentSize) (hdepth : r.rest.length ≤ depth) :
    (r.ch = 39 → (StringRecognised r (readToken (depth+1) r comment token separated) ↔
      ∀ contents, ¬ Closes 39 r.rest contents [0])) ∧
    (r.ch = 34 → (CommentRecognised depth r token (readToken (depth+1) r comment token separated) ↔
      (∀ contents, ¬ Closes 34 r.rest contents [0]) ∧
      (Unclosed 34 r.rest → (quotation 34 r.rest).1.length ≤ token.contentSize))) :=
  ⟨fun hch => stringRecognised_iff depth comment separated h hch htoken,
    fun hch => commentRecognised_iff depth comment separated h hch hcomment htoken hdepth⟩

end

theorem string_recognised_before_separator : let r : Reader := ⟨39,[97,39,32,0],1,1,2⟩
    StringRecognised r (readToken 5 r emptyToken emptyToken false) := by
  have he : Ended [39,97,39,32,0] := ⟨[39,97,39,32],by decide,rfl⟩
  refine ((quotations_recognised_iff 4 emptyToken false (r := ⟨39,_,_,_,_⟩) he (by decide) (by decide) (by decide)).1 rfl).mpr fun contents hc => ?_
  have heq := hc.quotation_eq (by decide) (he.tail (by decide))
  have hsnd : (quotation 39 [97,39,32,0]).2 = [0] := congrArg Prod.snd heq
  exact absurd hsnd (by decide)

/-- The source is a string and nothing else. -/
theorem string_at_end_unclosed : Closes 39 [97,39,0] [97] [0] ∧
    ((startTokenizer [39,97,39,0]).bind nextToken).map (·.1.type) = some .unclosedString :=
  ⟨⟨rfl,by decide⟩,by decide⟩

end SmalltalkJit.Tokenizing
