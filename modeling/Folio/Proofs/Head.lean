import Folio.Proofs.StyleElement

set_option autoImplicit false

/-!
# The written head read back

What the authors of a page and its site put into the head is written escaped, into attribute values
and into the title. So a reader finds the tags that are prescribed for what the head has, in their
order and no others, and decodes from them what was put in. The style sheet is written as it is: it
must not end its element, in small letters or in capitals.
-/
namespace Folio.Markup

inductive PlainTag where
  | opening (name : Text) (attributes : List PlainAttribute)
  | closing (name : Text)
  | other
deriving DecidableEq, Repr

def Attribute.plain (a : Attribute) : PlainAttribute := (a.name, a.value.map decode)

def Token.plain? : Token → Option PlainTag
  | .text _ => none
  | .rawText _ => none
  | .startTag name l _ => some (.opening name (l.map Attribute.plain))
  | .endTag name => some (.closing name)
  | .comment _ => some .other
  | .bogus => some .other

def plainTags (ts : List Token) : List PlainTag := ts.filterMap Token.plain?

theorem plainTags_append (ts us : List Token) :
    plainTags (ts ++ us) = plainTags ts ++ plainTags us := List.filterMap_append

theorem plainTags_tags (s : Text) : plainTags (tags s) = plainTags (tokens s) := by
  -- what is left out as no tag has no plain tag either
  have hfun : (fun t => if t.isTag = true then Token.plain? t else none) = Token.plain? := by
    funext t
    cases t <;> rfl
  rw [plainTags, tags, tagsFrom, List.filterMap_filter, hfun]
  rfl

def areRegular (names : List Text) : Bool :=
  names.all (fun name => Text.lower name = name) && decide names.Nodup

theorem plain_readAttributes {l : List PlainAttribute} (h : areRegular (l.map Prod.fst) = true) :
    (readAttributes l).map Attribute.plain = l := by
  obtain ⟨hlower, hnodup⟩ : (∀ a ∈ l, Text.lower a.1 = a.1) ∧ (l.map Prod.fst).Nodup := by
    simpa [areRegular] using h
  have hread : readAttributes l = l.map spelled := by
    have hsame : (l.map spelled).map Attribute.lowered = l.map spelled := by
      rw [List.map_map]
      refine List.map_congr_left fun a ha => ?_
      simp [Attribute.lowered, spelled, hlower a ha]
    rw [readAttributes, hsame, firstOfEach_of_nodup]
    rw [List.map_map]
    exact hnodup
  have hplain : Attribute.plain ∘ spelled = id := by
    funext a
    obtain ⟨name, value⟩ := a
    cases value with
    | none => rfl
    | some v => simp [Attribute.plain, spelled, decode_escapeAttribute]
  rw [hread, List.map_map, hplain, List.map_id]

namespace Html

theorem plainTags_tagsAll (l : List Html) :
    plainTags (tagsAll l) = l.flatMap fun h => plainTags h.tags := by
  induction l with
  | nil => rfl
  | cons h l ih => rw [tagsAll, plainTags_append, ih, List.flatMap_cons]

theorem plainTags_void (tag : Text) {l : List PlainAttribute} (h : areRegular (l.map Prod.fst) = true) :
    plainTags (void tag l).tags = [.opening tag l] := by
  rw [tags]
  exact congrArg (fun l => [PlainTag.opening tag l]) (plain_readAttributes h)

theorem plainTags_element {tag : Text} (hraw : rawOf tag = none) (content : List Html) :
    plainTags (element tag [] content).tags =
      .opening tag [] :: (plainTags (tagsAll content) ++ [.closing tag]) := by
  have hcontent : (element tag [] content).tags =
      .startTag tag [] false :: (tagsAll content ++ [.endTag tag]) := by
    rw [tags, hraw]
    rfl
  rw [hcontent]
  change .opening tag [] :: plainTags (tagsAll content ++ [.endTag tag]) = _
  rw [plainTags_append]
  rfl

theorem plainTags_raw {tag : Text} (hraw : (rawOf tag).isSome = true) (content : List Html) :
    plainTags (element tag [] content).tags = [.opening tag [], .closing tag] := by
  rw [tags, if_pos hraw]
  rfl

end Html

theorem Html.writeAll_onLines_cons (h : Html) (l : List Html) :
    Html.writeAll (Html.onLines (h :: l)) = "\n" ++ (h.write ++ Html.writeAll (Html.onLines l)) := by
  have hbreak : escape "\n" = "\n" := by decide
  change Html.writeAll (.text "\n" :: h :: Html.onLines l) = _
  rw [Html.writeAll, Html.writeAll, Html.write, hbreak]

def leadingRawText : List Token → Text
  | .rawText s :: _ => s
  | _ => []

def rawTextOf (name : Text) : List Token → Option Text
  | [] => none
  | .startTag tag _ _ :: ts => if tag = name then some (leadingRawText ts) else rawTextOf name ts
  | _ :: ts => rawTextOf name ts

theorem startTag_append (tag : Text) (l : List PlainAttribute) (r : Text) : Html.startTag tag l ++ r =
    '<' :: (tag ++ ((l.map spelled).flatMap Attribute.spell ++ '>' :: r)) := by
  rw [startTag_eq, openingTag_append]

theorem tokens_startTag {tag : Text} (ht : isTagName tag = true) {l : List PlainAttribute}
    (hl : NamedAttributes l) (r : Text) : tokens (Html.startTag tag l ++ r) =
      .startTag tag (readAttributes l) false :: (lexFrom (rawOf tag) r).map Lexeme.token := by
  rw [startTag_append, tokens, lex, tokensFrom_cons, nextIn_openingTag ht (legible_spelled hl)]
  rfl

theorem tokens_break {tag : Text} (ht : isTagName tag = true) (l : List PlainAttribute) (r : Text) :
    tokens ("\n" ++ (Html.startTag tag l ++ r)) = .text "\n" :: tokens (Html.startTag tag l ++ r) := by
  let rest := tag ++ ((l.map spelled).flatMap Attribute.spell ++ '>' :: r)
  have hplain : Lexer.plain ('<' :: rest) = ([], '<' :: rest) := by
    rw [Lexer.plain, opensMarkup_of_isTagName ht, if_pos (by decide)]
  have hnext : Lexer.nextIn none '\n' ('<' :: rest) = (.text "\n", '<' :: rest) := by
    rw [Lexer.nextIn, Lexer.next, hplain]
    rfl
  rw [startTag_append]
  change (lexFrom none ('\n' :: '<' :: rest)).map Lexeme.token = _
  rw [tokensFrom_cons, hnext]
  rfl

theorem rawBody_of_not_mem {name w : Text} (hw : '<' ∉ w) {c : Char} {r : Text}
    (hr : Lexer.closes name (c :: r) = true) : Lexer.rawBody name (w ++ c :: r) = (w, c :: r) := by
  refine (Lexer.scans_rawBody name).eq_iff.2 ⟨fun u hu hin => ?_, .inr hr⟩
  obtain ⟨d, u, rfl⟩ := List.exists_cons_of_ne_nil hu
  have hd : d ≠ '<' := fun e => hw (e ▸ hin.subset List.mem_cons_self)
  exact closes_cons_eq_false (.inl hd)

theorem rawTextOf_element {name w : Text} (hn : Closable name) (hraw : rawOf name = some name)
    (hw : '<' ∉ w) (r : Text) :
    rawTextOf name (tokens (Html.startTag name [] ++ (w ++ (Html.endTag name ++ r)))) = some w := by
  obtain ⟨ht, hplain⟩ := hn
  have hclose : Lexer.closes name ('<' :: '/' :: (name ++ '>' :: r)) = true := by
    rw [← endTag_append, closes_endTag ht ht, decide_eq_true rfl]
  have hbody := rawBody_of_not_mem hw hclose
  rw [tokens_startTag ht (by simp [NamedAttributes]), hraw, endTag_append, rawTextOf, if_pos rfl]
  cases w with
  | nil =>
    -- no token stands for raw text that is empty: the end tag comes at once
    have hnext : Lexer.nextIn (some name) '<' ('/' :: (name ++ '>' :: r)) = (.endTag name, r) := by
      have hempty : Lexer.rawText name ('<' :: '/' :: (name ++ '>' :: r)) =
          ([], '<' :: '/' :: (name ++ '>' :: r)) := by
        rw [Lexer.rawText, if_neg hplain]
        exact hbody
      simp only [Lexer.nextIn, hempty]
      exact nextIn_endTag ht r
    rw [List.nil_append, tokensFrom_cons, hnext]
    rfl
  | cons c w =>
    have hnext : Lexer.nextIn (some name) c (w ++ '<' :: '/' :: (name ++ '>' :: r)) =
        (.rawText (c :: w), '<' :: '/' :: (name ++ '>' :: r)) := Lexer.nextIn_rawBody hplain hbody
    rw [List.cons_append, tokensFrom_cons, hnext]
    rfl

theorem rawTextOf_line {name tag : Text} (ht : isTagName tag = true) (hne : tag ≠ name)
    (hraw : rawOf tag = none) {l : List PlainAttribute} (hl : NamedAttributes l) (r : Text) :
    rawTextOf name (tokens ("\n" ++ (Html.startTag tag l ++ r))) = rawTextOf name (tokens r) := by
  rw [tokens_break ht, tokens_startTag ht hl, rawTextOf, rawTextOf, if_neg hne, hraw]
  · rfl
  · simp

end Folio.Markup

namespace Folio
open Markup

inductive TagKind where
  | named
  | property
  | linked
deriving DecidableEq, Repr

namespace TagKind

def element : TagKind → Text
  | named => "meta"
  | property => "meta"
  | linked => "link"

def keyName : TagKind → Text
  | named => "name"
  | property => "property"
  | linked => "rel"

def valueName : TagKind → Text
  | named => "content"
  | property => "content"
  | linked => "href"

theorem keyName_inj {k m : TagKind} (h : k.keyName = m.keyName) : k = m := by
  revert h
  cases k <;> cases m <;> decide

theorem keyName_ne_valueName (k m : TagKind) : k.keyName ≠ m.valueName := by
  cases k <;> cases m <;> decide

end TagKind

/-- What a tag says something about: its kind and the value of the attribute that names it. -/
structure Label where
  kind : TagKind
  subject : Text
deriving DecidableEq, Repr

namespace Label

def key (l : Label) : PlainAttribute := attr l.kind.keyName l.subject

def tag (l : Label) (value : Text) : PlainTag :=
  .opening l.kind.element [l.key, attr l.kind.valueName value]

def readTag? (l : Label) : PlainTag → Option Text
  | .opening _ attributes =>
    if l.key ∈ attributes then (attributes.lookup l.kind.valueName).join else none
  | _ => none

def read? (l : Label) (tags : List PlainTag) : Option Text := tags.findSome? l.readTag?

theorem key_inj {l m : Label} (h : l.key = m.key) : l = m := by
  obtain ⟨kind, subject⟩ := l
  obtain ⟨hname, hsubject⟩ := Prod.mk.inj h
  obtain rfl : kind = m.kind := TagKind.keyName_inj hname
  obtain rfl : subject = m.subject := Option.some.inj hsubject
  rfl

theorem readTag?_tag (l : Label) (value : Text) : l.readTag? (l.tag value) = some value := by
  have hmem : l.key ∈ [l.key, attr l.kind.valueName value] := List.mem_cons_self
  have hne : (l.kind.valueName == l.kind.keyName) = false :=
    beq_eq_false_iff_ne.2 (TagKind.keyName_ne_valueName _ _).symm
  rw [tag, readTag?, if_pos hmem, key, attr, List.lookup_cons, hne, attr, List.lookup_cons_self]
  rfl

theorem readTag?_tag_of_ne {l m : Label} (h : l ≠ m) (value : Text) :
    l.readTag? (m.tag value) = none := by
  have hmem : l.key ∉ [m.key, attr m.kind.valueName value] := by
    intro hm
    rcases List.mem_pair.1 hm with e | e
    · exact h (key_inj e)
    · exact TagKind.keyName_ne_valueName _ _ (Prod.mk.inj e).1
  rw [tag, readTag?, if_neg hmem]

theorem read?_append (l : Label) (ts us : List PlainTag) :
    l.read? (ts ++ us) = (l.read? ts).or (l.read? us) := List.findSome?_append

end Label

structure Field where
  label : Label
  value : Option Text

namespace Field

def tags (f : Field) : List PlainTag := (f.value.map f.label.tag).toList

theorem read?_tags (f : Field) : f.label.read? f.tags = f.value := by
  obtain ⟨label, value⟩ := f
  cases value with
  | none => rfl
  | some s =>
    change [label.tag s].findSome? label.readTag? = some s
    rw [List.findSome?_singleton, label.readTag?_tag]

theorem read?_tags_of_ne {l : Label} {f : Field} (h : l ≠ f.label) : l.read? f.tags = none := by
  obtain ⟨label, value⟩ := f
  cases value with
  | none => rfl
  | some s =>
    change [label.tag s].findSome? l.readTag? = none
    rw [List.findSome?_singleton, Label.readTag?_tag_of_ne h]

theorem read?_flatMap_of_not_mem {l : Label} {fs : List Field} (h : l ∉ fs.map Field.label) :
    l.read? (fs.flatMap tags) = none := by
  induction fs with
  | nil => rfl
  | cons f fs ih =>
    obtain ⟨hf, hfs⟩ : l ≠ f.label ∧ l ∉ fs.map Field.label := by simpa using h
    rw [List.flatMap_cons, Label.read?_append, read?_tags_of_ne hf, ih hfs]
    rfl

/-- Where no two fields are about the same, each is read back from the tags of all. -/
theorem read?_flatMap {fs : List Field} (hn : (fs.map Field.label).Nodup) {f : Field} (hf : f ∈ fs) :
    f.label.read? (fs.flatMap tags) = f.value := by
  induction fs with
  | nil => simp at hf
  | cons g fs ih =>
    obtain ⟨hg, hfs⟩ := List.nodup_cons.1 hn
    rw [List.flatMap_cons, Label.read?_append]
    rcases List.mem_cons.1 hf with rfl | hf
    · rw [read?_tags, read?_flatMap_of_not_mem hg, Option.or_none]
    · have hne : f.label ≠ g.label := fun e => hg (e ▸ List.mem_map_of_mem hf)
      rw [read?_tags_of_ne hne, Option.none_or, ih hfs hf]

end Field

namespace Head

def cardStyle (c : ShareCard) : Text := if c.image.isSome then "summary_large_image" else "summary"

def fields (h : Head) : List Field :=
  [⟨⟨.named, "description"⟩, h.description⟩,
   ⟨⟨.named, "keywords"⟩, h.keywords⟩,
   ⟨⟨.named, "robots"⟩, some h.robots.content⟩,
   ⟨⟨.linked, "canonical"⟩, h.canonicalUrl⟩,
   ⟨⟨.property, "og:type"⟩, h.card.map (·.kind)⟩,
   ⟨⟨.property, "og:title"⟩, h.card.map (·.title)⟩,
   ⟨⟨.property, "og:description"⟩, h.card.bind (·.description)⟩,
   ⟨⟨.property, "og:url"⟩, h.card.bind fun _ => h.canonicalUrl⟩,
   ⟨⟨.property, "og:site_name"⟩, h.card.bind fun _ => h.siteName⟩,
   ⟨⟨.property, "og:image"⟩, h.card.bind (·.image)⟩,
   ⟨⟨.named, "twitter:card"⟩, h.card.map cardStyle⟩,
   ⟨⟨.named, "twitter:title"⟩, h.card.map (·.title)⟩,
   ⟨⟨.named, "twitter:description"⟩, h.card.bind (·.description)⟩,
   ⟨⟨.named, "twitter:image"⟩, h.card.bind (·.image)⟩,
   ⟨⟨.linked, "icon"⟩, h.favicon.bind (Link.safeResource? true)⟩]

def labels : List Label :=
  [⟨.named, "description"⟩, ⟨.named, "keywords"⟩, ⟨.named, "robots"⟩, ⟨.linked, "canonical"⟩,
   ⟨.property, "og:type"⟩, ⟨.property, "og:title"⟩, ⟨.property, "og:description"⟩,
   ⟨.property, "og:url"⟩, ⟨.property, "og:site_name"⟩, ⟨.property, "og:image"⟩,
   ⟨.named, "twitter:card"⟩, ⟨.named, "twitter:title"⟩, ⟨.named, "twitter:description"⟩,
   ⟨.named, "twitter:image"⟩, ⟨.linked, "icon"⟩]

theorem labels_fields (h : Head) : h.fields.map Field.label = labels := rfl

def preamble : List PlainTag :=
  [.opening "meta" [attr "charset" "utf-8"],
   .opening "meta" [attr "name" "viewport", attr "content" "width=device-width, initial-scale=1"],
   .opening "title" [], .closing "title"]

/-- The tags of a head with a style sheet and without code. -/
def prescribed (h : Head) (sheet : Text) : List PlainTag :=
  .opening "head" [] :: (preamble ++ h.fields.flatMap Field.tags ++
    (if sheet.isEmpty then [] else [.opening "style" [], .closing "style"]) ++ [.closing "head"])

def tokens (h : Head) (sheet : Text) : List Token := Markup.tokens ((h.html sheet []).write ++ "\n")

/-- The written head has the tags that are prescribed, and its title and the values of its fields are
    decoded from it. -/
structure ReadBack (h : Head) (sheet : Text) : Prop where
  tags : plainTags (h.tokens sheet) = h.prescribed sheet
  title : (rawTextOf "title" (h.tokens sheet)).map decode = some h.title
  fields : ∀ f ∈ h.fields, f.label.read? (plainTags (h.tokens sheet)) = f.value

theorem plainTags_named (name content : Text) :
    plainTags (named name content).tags = [Label.tag ⟨.named, name⟩ content] :=
  Html.plainTags_void _ rfl

theorem plainTags_property (name content : Text) :
    plainTags (property name content).tags = [Label.tag ⟨.property, name⟩ content] :=
  Html.plainTags_void _ rfl

theorem plainTags_linked (rel href : Text) :
    plainTags (linked rel href).tags = [Label.tag ⟨.linked, rel⟩ href] :=
  Html.plainTags_void _ rfl

def fieldLines (h : Head) : List Html :=
  (h.description.map (named "description")).toList ++
    (h.keywords.map (named "keywords")).toList ++
    [named "robots" h.robots.content] ++
    (h.canonicalUrl.map (linked "canonical")).toList ++
    h.card.toList.flatMap (cardLines h.canonicalUrl h.siteName) ++
    ((h.favicon.bind (Link.safeResource? true)).map (linked "icon")).toList

theorem lines_eq (h : Head) (sheet : Text) : h.lines sheet [] =
    [.void "meta" [attr "charset" "utf-8"],
     named "viewport" "width=device-width, initial-scale=1", .element "title" [] [.text h.title]] ++
      h.fieldLines ++ styleLines sheet := by
  simp only [lines, fieldLines, List.append_assoc, List.map_nil, List.append_nil]

theorem flatMap_line {f : Text → Html} {l : Label} (h : ∀ s, plainTags (f s).tags = [l.tag s])
    (o : Option Text) :
    ((o.map f).toList.flatMap fun h => plainTags h.tags) = (o.map l.tag).toList := by
  cases o with
  | none => rfl
  | some s => exact (List.append_nil _).trans (h s)

theorem plainTags_styleLines (sheet : Text) :
    ((styleLines sheet).flatMap fun h => plainTags h.tags) =
      if sheet.isEmpty then [] else [.opening "style" [], .closing "style"] := by
  unfold styleLines
  split
  · rfl
  · exact (List.append_nil _).trans (Html.plainTags_raw rfl _)

theorem plainTags_fieldLines (h : Head) :
    (h.fieldLines.flatMap fun h => plainTags h.tags) = h.fields.flatMap Field.tags := by
  have hnamed (name : Text) := flatMap_line (plainTags_named name)
  have hproperty (name : Text) := flatMap_line (plainTags_property name)
  have hlinked (rel : Text) := flatMap_line (plainTags_linked rel)
  cases hcard : h.card with
  | none =>
    simp only [fieldLines, fields, Field.tags, hcard, List.flatMap_append, List.flatMap_cons,
      List.flatMap_nil, Option.toList_none, Option.toList_some, Option.map_none, Option.map_some,
      Option.bind_none, hnamed, hlinked, plainTags_named, List.append_assoc, List.append_nil,
      List.nil_append]
  | some c =>
    simp only [fieldLines, fields, cardLines, cardStyle, Field.tags, hcard, List.flatMap_append,
      List.flatMap_cons, List.flatMap_nil, Option.toList_some, Option.map_some, Option.bind_some,
      hnamed, hproperty, hlinked, plainTags_named, plainTags_property, List.append_assoc,
      List.append_nil]

theorem plainTags_html (h : Head) (sheet : Text) :
    plainTags (h.html sheet []).tags = h.prescribed sheet := by
  have htitle : plainTags (Html.element "title" [] [.text h.title]).tags =
      [.opening "title" [], .closing "title"] := Html.plainTags_raw rfl _
  have hcharset : plainTags (Html.void "meta" [attr "charset" "utf-8"]).tags =
      [.opening "meta" [attr "charset" "utf-8"]] := Html.plainTags_void _ rfl
  have hlines : plainTags (Html.tagsAll (Html.onLines (h.lines sheet []))) =
      preamble ++ h.fields.flatMap Field.tags ++
        if sheet.isEmpty then [] else [.opening "style" [], .closing "style"] := by
    rw [Html.tagsAll_onLines, Html.plainTags_tagsAll, lines_eq, List.flatMap_append,
      List.flatMap_append, plainTags_fieldLines, plainTags_styleLines, List.flatMap_cons,
      List.flatMap_cons, List.flatMap_cons, hcharset, plainTags_named, htitle]
    rfl
  rw [html, Html.plainTags_element rfl, hlines, prescribed]

theorem rawTextOf_title (h : Head) (sheet : Text) :
    rawTextOf "title" (h.tokens sheet) = some (escape h.title) := by
  let charset := [attr "charset" "utf-8"]
  let viewport := [attr "name" "viewport", attr "content" "width=device-width, initial-scale=1"]
  let rest :=
    Html.writeAll (Html.onLines (h.fieldLines ++ styleLines sheet)) ++ Html.endTag "head" ++ "\n"
  have hwrite : (h.html sheet []).write ++ "\n" = Html.startTag "head" [] ++ ("\n" ++
      (Html.startTag "meta" charset ++ ("\n" ++ (Html.startTag "meta" viewport ++ ("\n" ++
        (Html.startTag "title" [] ++ (escape h.title ++ (Html.endTag "title" ++ rest)))))))) := by
    simp only [html, lines_eq, named, Html.write, Html.writeAll, Html.writeAll_onLines_cons,
      List.append_assoc, List.cons_append, List.nil_append, List.append_nil, charset, viewport, rest]
  have hname (l : List PlainAttribute) (hl : (l.map Prod.fst).all isAttributeName = true) :
      NamedAttributes l := by simpa [NamedAttributes] using hl
  rw [tokens, hwrite, tokens_startTag (by decide) (hname [] rfl), rawTextOf, if_neg (by decide)]
  change rawTextOf "title" (Markup.tokens _) = _
  rw [rawTextOf_line (by decide) (by decide) rfl (hname charset rfl),
    rawTextOf_line (by decide) (by decide) rfl (hname viewport rfl), tokens_break (by decide), rawTextOf]
  · exact rawTextOf_element ⟨by decide, by decide⟩ rfl (inert_escape h.title).not_mem_open rest
  · simp

theorem read?_prescribed {h : Head} {f : Field} (hf : f ∈ h.fields) (sheet : Text) :
    f.label.read? (h.prescribed sheet) = f.value := by
  have hmem : f.label ∈ labels := labels_fields h ▸ List.mem_map_of_mem hf
  have hbefore : f.label.read? (.opening "head" [] :: preamble) = none := by
    have hall : ∀ l ∈ labels, l.read? (.opening "head" [] :: preamble) = none := by decide
    exact hall f.label hmem
  have hstyle : f.label.read? (if sheet.isEmpty then [] else [.opening "style" [], .closing "style"]) =
      none := by
    split <;> rfl
  have hnodup : (h.fields.map Field.label).Nodup := labels_fields h ▸ by decide
  have hsplit : h.prescribed sheet = (.opening "head" [] :: preamble) ++ h.fields.flatMap Field.tags ++
      (if sheet.isEmpty then [] else [.opening "style" [], .closing "style"]) ++
      [.closing "head"] := rfl
  rw [hsplit, Label.read?_append, Label.read?_append, Label.read?_append, hbefore, hstyle,
    Field.read?_flatMap hnodup hf, Option.none_or, Option.or_none]
  exact Option.or_none

/-- A head is read back as what it says, if its style sheet cannot end its element. -/
theorem readBack_of_closeless (h : Head) {sheet : Text} (hs : Style.Closeless sheet) :
    h.ReadBack sheet := by
  have hlegible := (h.carries_html hs).legible
  have htags : plainTags (h.tokens sheet) = h.prescribed sheet := by
    have hend : Markup.tags "\n" = [] := tags_inert (by decide)
    rw [tokens, ← plainTags_tags, Html.tags_write _ hlegible, hend, List.append_nil, plainTags_html]
  exact {
    tags := htags
    title := by rw [rawTextOf_title, Option.map_some, decode_escape]
    fields := fun f hf => by rw [htags, read?_prescribed hf] }

def markedHead : Head where
  title := "<b>\"Hi\"</b>"
  description := some "</head>"
  keywords := none
  canonicalUrl := some "https://a.test/?x=1&amp;y=2"
  robots := ⟨true, false⟩
  favicon := some " /i.png "
  siteName := none
  card := some { kind := "website", title := "`Hi`", description := none, image := some "/'.png" }

theorem readBack_of_closeless_marked :
    Style.Closeless "a{}" ∧
      plainTags (markedHead.tokens "a{}") =
        [.opening "head" [],
         .opening "meta" [attr "charset" "utf-8"],
         .opening "meta" [attr "name" "viewport", attr "content" "width=device-width, initial-scale=1"],
         .opening "title" [], .closing "title",
         .opening "meta" [attr "name" "description", attr "content" "</head>"],
         .opening "meta" [attr "name" "robots", attr "content" "noindex, follow"],
         .opening "link" [attr "rel" "canonical", attr "href" "https://a.test/?x=1&amp;y=2"],
         .opening "meta" [attr "property" "og:type", attr "content" "website"],
         .opening "meta" [attr "property" "og:title", attr "content" "`Hi`"],
         .opening "meta" [attr "property" "og:url", attr "content" "https://a.test/?x=1&amp;y=2"],
         .opening "meta" [attr "property" "og:image", attr "content" "/'.png"],
         .opening "meta" [attr "name" "twitter:card", attr "content" "summary_large_image"],
         .opening "meta" [attr "name" "twitter:title", attr "content" "`Hi`"],
         .opening "meta" [attr "name" "twitter:image", attr "content" "/'.png"],
         .opening "link" [attr "rel" "icon", attr "href" "/i.png"],
         .opening "style" [], .closing "style", .closing "head"] ∧
      (rawTextOf "title" (markedHead.tokens "a{}")).map decode = some "<b>\"Hi\"</b>" := by
  have hs : Style.Closeless "a{}" := Style.closeless_of_not_mem (by decide)
  obtain ⟨htags, htitle, _⟩ := readBack_of_closeless markedHead hs
  exact ⟨hs, htags.trans (by decide +kernel), htitle⟩

def plainHead : Head where
  title := "A"
  description := none
  keywords := none
  canonicalUrl := none
  robots := ⟨false, false⟩
  favicon := none
  siteName := none
  card := none

/-- An end tag in capitals ends the style element too. -/
theorem not_readBack_capitals :
    ¬ ∀ (h : Head) (sheet : Text), ¬ ("</style" : Text) <:+: sheet → h.ReadBack sheet := by
  intro h
  have htags : plainTags (plainHead.tokens "</STYLE>") ≠ plainHead.prescribed "</STYLE>" := by
    decide +kernel
  have hsmall : ¬ ("</style" : Text) <:+: "</STYLE>" := by
    intro hin
    have hs : 's' ∈ ("</STYLE>" : Text) := hin.subset (by decide)
    exact absurd hs (by decide)
  exact htags (h plainHead "</STYLE>" hsmall).tags

end Head

end Folio
