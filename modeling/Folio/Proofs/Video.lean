import Folio.Proofs.Harmless

set_option autoImplicit false

/-!
# Videos

An id of a platform is made of plain characters, so the URL of its player is the fixed beginning with
plain characters after it. Every source that a video is drawn with is therefore a safe resource as it
is written, and a frame shows nothing but a player.
-/
namespace Folio.Link.VideoSource

theorem isPlain_of_isIdChar {c : Char} (h : isIdChar c = true) : isPlain c = true := by
  by_cases hc : c.toNat < 128
  · exact Text.forall_ascii (P := fun c => isIdChar c = true → isPlain c = true) (by decide) hc h
  · simp only [isIdChar, Text.foldChar] at h
    split at h
    · subst c
      decide
    · split at h
      · subst c
        decide
      · rw [Text.toLower_of_not_ascii hc] at h
        simp only [Bool.or_eq_true, decide_eq_true_eq] at h
        rcases h with (h | rfl) | rfl
        · exact absurd (Text.toNat_lt_of_isAlphanum h) hc
        · decide
        · decide

theorem isPlain_of_isDecimalDigit {c : Char} (h : Text.isDecimalDigit c = true) :
    isPlain c = true := by
  obtain ⟨r, hr, hc⟩ := List.any_eq_true.1 h
  have happart : ∀ r ∈ Text.digitRanges, 0x20 ≤ r.1 ∧ (r.2 < 0x7F ∨ 0x9F < r.1) ∧
      ∀ q ∈ Text.blankRanges, r.2 < q.1 ∨ q.2 < r.1 := by decide
  obtain ⟨hlow, hmid, hblank⟩ := happart r hr
  simp only [Bool.and_eq_true, decide_eq_true_eq] at hc
  rw [isPlain_iff]
  constructor
  · refine List.any_eq_false.2 fun q hq => ?_
    have hq := hblank q hq
    simp only [Bool.and_eq_true, decide_eq_true_eq, not_and]
    omega
  · simp only [Text.isControl, Bool.or_eq_false_iff, Bool.and_eq_false_iff, decide_eq_false_iff_not]
    omega

theorem isIdChar_of_videoId? {s id : Text} (h : videoId? s = some id) : ∀ c ∈ id, isIdChar c = true := by
  simp only [videoId?] at h
  split at h
  · obtain rfl := Option.some.inj h
    exact fun c hc => List.mem_takeWhile_imp hc
  · simp at h

theorem plain_of_videoId? {s id : Text} (h : videoId? s = some id) : ∀ c ∈ id, isPlain c = true :=
  fun c hc => isPlain_of_isIdChar (isIdChar_of_videoId? h c hc)

theorem isDecimalDigit_of_digits? {s id : Text} (h : digits? s = some id) :
    ∀ c ∈ id, Text.isDecimalDigit c = true := by
  simp only [digits?] at h
  split at h
  · simp at h
  · obtain rfl := Option.some.inj h
    exact fun c hc => List.mem_takeWhile_imp hc

theorem plain_of_digits? {s id : Text} (h : digits? s = some id) : ∀ c ∈ id, isPlain c = true :=
  fun c hc => isPlain_of_isDecimalDigit (isDecimalDigit_of_digits? h c hc)

theorem exists_of_parameterId? {s id : Text} (h : parameterId? s = some id) :
    ∃ t, videoId? t = some id := by
  obtain ⟨t, _, ht⟩ := Option.bind_eq_some_iff.1 h
  exact ⟨t, ht⟩

theorem exists_of_laterParameterId? {s id : Text} (h : laterParameterId? s = some id) :
    ∃ t, videoId? t = some id := by
  induction s with
  | nil => simp [laterParameterId?] at h
  | cons c s ih =>
    simp only [laterParameterId?] at h
    split at h
    · simp at h
    · rcases Option.or_eq_some_iff.1 h with h | ⟨_, h⟩
      · exact ih h
      · split at h
        · exact exists_of_parameterId? h
        · simp at h

theorem exists_of_pathId? {s id : Text} (h : pathId? s = some id) : ∃ t, videoId? t = some id := by
  rcases Option.or_eq_some_iff.1 h with h | ⟨_, h⟩
  · obtain ⟨t, _, ht⟩ := Option.bind_eq_some_iff.1 h
    rcases Option.or_eq_some_iff.1 ht with ht | ⟨_, ht⟩
    · exact exists_of_laterParameterId? ht
    · exact exists_of_parameterId? ht
  · obtain ⟨p, _, hp⟩ := List.exists_of_findSome?_eq_some h
    obtain ⟨t, _, ht⟩ := Option.bind_eq_some_iff.1 hp
    exact ⟨t, ht⟩

theorem exists_of_youTubeId? {s id : Text} (h : youTubeId? s = some id) : ∃ t, videoId? t = some id := by
  rcases Option.or_eq_some_iff.1 h with h | ⟨_, h⟩
  · obtain ⟨t, _, ht⟩ := Option.bind_eq_some_iff.1 h
    exact exists_of_pathId? ht
  · obtain ⟨t, _, ht⟩ := Option.bind_eq_some_iff.1 h
    exact ⟨t, ht⟩

theorem plain_of_youTubeId? {s id : Text} (h : youTubeId? s = some id) :
    ∀ c ∈ id, isPlain c = true := by
  obtain ⟨t, ht⟩ := exists_of_youTubeId? h
  exact plain_of_videoId? ht

theorem exists_of_vimeoId? {s id : Text} (h : vimeoId? s = some id) : ∃ t, digits? t = some id := by
  obtain ⟨t, _, ht⟩ := Option.bind_eq_some_iff.1 h
  rcases Option.or_eq_some_iff.1 ht with ht | ⟨_, ht⟩
  · obtain ⟨u, _, hu⟩ := Option.bind_eq_some_iff.1 ht
    exact ⟨u, hu⟩
  · exact ⟨t, ht⟩

theorem plain_of_vimeoId? {s id : Text} (h : vimeoId? s = some id) : ∀ c ∈ id, isPlain c = true := by
  obtain ⟨t, ht⟩ := exists_of_vimeoId? h
  exact plain_of_digits? ht

theorem exists_of_first? {answer? : Text → Option Text} {s a : Text} (h : first? answer? s = some a) :
    ∃ t, answer? t = some a := by
  induction s with
  | nil => simp [first?] at h
  | cons c s ih =>
    rcases Option.or_eq_some_iff.1 h with h | ⟨_, h⟩
    · exact ⟨c :: s, h⟩
    · exact ih h

def Usable : VideoSource → Prop
  | youTube id => ∀ c ∈ id, isPlain c = true
  | vimeo id => ∀ c ∈ id, isPlain c = true
  | file url => safeResource? true url = some url

theorem usable_of_ofText? {s : Text} {v : VideoSource} (h : ofText? s = some v) : v.Usable := by
  simp only [ofText?] at h
  split at h
  · rename_i hid
    obtain rfl := Option.some.inj h
    obtain ⟨t, ht⟩ := exists_of_first? hid
    exact plain_of_youTubeId? ht
  · rename_i hid
    obtain rfl := Option.some.inj h
    obtain ⟨t, ht⟩ := exists_of_first? hid
    exact plain_of_vimeoId? ht
  · obtain ⟨url, hu, rfl⟩ := Option.map_eq_some_iff.1 h
    exact safeResource?_true (safeResource?_self hu)

end Folio.Link.VideoSource

namespace Folio.Render
open Markup

namespace Playback

theorem withQuery_eq (url : Text) {l : List Text} (h : ∀ t ∈ l, ∀ c ∈ t, Link.isPlain c = true) :
    ∃ r : Text, (∀ c ∈ r, Link.isPlain c = true) ∧ withQuery url l = url ++ r := by
  unfold withQuery
  split
  · exact ⟨[], by simp, (List.append_nil url).symm⟩
  · refine ⟨'?' :: Text.join "&" l, List.forall_mem_cons.2 ⟨by decide, ?_⟩, rfl⟩
    exact Text.forall_mem_join (by decide) h

theorem plain_parameters (b : Playback) (muteKey : Text) (playlist : List Text)
    (hm : ∀ c ∈ muteKey, Link.isPlain c = true)
    (hp : ∀ t ∈ playlist, ∀ c ∈ t, Link.isPlain c = true) :
    ∀ t ∈ b.parameters muteKey playlist, ∀ c ∈ t, Link.isPlain c = true := by
  intro t ht
  simp only [parameters, List.mem_append] at ht
  rcases ht with ((ht | ht) | ht) | ht <;> split at ht
  · obtain rfl : t = "autoplay=1" := by simpa using ht
    decide
  · simp at ht
  · obtain rfl : t = muteKey ++ "=1" := by simpa using ht
    exact List.forall_mem_append.2 ⟨hm, by decide⟩
  · simp at ht
  · rcases List.mem_cons.1 ht with rfl | ht
    · decide
    · obtain ⟨u, hu, rfl⟩ := List.mem_map.1 ht
      exact List.forall_mem_append.2 ⟨by decide, hp u hu⟩
  · simp at ht
  · simp at ht
  · obtain rfl : t = "controls=0" := by simpa using ht
    decide

theorem youTubeUrl_eq (b : Playback) {id : Text} (h : ∀ c ∈ id, Link.isPlain c = true) :
    ∃ r : Text, (∀ c ∈ r, Link.isPlain c = true) ∧
      b.youTubeUrl id = "https://www.youtube-nocookie.com/embed/" ++ r := by
  obtain ⟨r, hr, e⟩ := withQuery_eq ("https://www.youtube-nocookie.com/embed/" ++ id)
    (b.plain_parameters "mute" [id] (by decide) (by simpa using h))
  refine ⟨id ++ r, List.forall_mem_append.2 ⟨h, hr⟩, ?_⟩
  rw [youTubeUrl, e, List.append_assoc]

theorem vimeoUrl_eq (b : Playback) {id : Text} (h : ∀ c ∈ id, Link.isPlain c = true) :
    ∃ r : Text, (∀ c ∈ r, Link.isPlain c = true) ∧
      b.vimeoUrl id = "https://player.vimeo.com/video/" ++ r := by
  obtain ⟨r, hr, e⟩ := withQuery_eq ("https://player.vimeo.com/video/" ++ id)
    (b.plain_parameters "muted" [] (by decide) (by simp))
  refine ⟨id ++ r, List.forall_mem_append.2 ⟨h, hr⟩, ?_⟩
  rw [vimeoUrl, e, List.append_assoc]

end Playback

/-- A player of a fixed host is a safe resource as it is. -/
theorem safeResource?_player (host : Text) {r : Text} (hh : ∀ c ∈ host, Link.isPlain c = true)
    (hr : ∀ c ∈ r, Link.isPlain c = true) :
    Link.safeResource? true ("https://" ++ (host ++ r)) = some ("https://" ++ (host ++ r)) :=
  Link.safeResource?_secure true (List.forall_mem_append.2 ⟨hh, hr⟩)

variable [Link.HostReader] {ids : List Text}

theorem sound_frame {src : Text} (title : Text) (hs : Link.safeResource? true src = some src)
    (he : Embeddable src) : (frame src title).Sound [] := by
  have hl : SoundAttributes "iframe"
      [attr "src" src, attr "title" title,
        attr "allow" "accelerometer; autoplay; encrypted-media; gyroscope; picture-in-picture",
        bare "allowfullscreen", attr "loading" "lazy"] none :=
    (SoundAttributes.source hs fun _ => he).append (.neutral rfl)
  have hraw : rawOf "iframe" = some "iframe" := rfl
  refine ⟨Html.carries_raw (by decide) hraw (by decide) hl.toIdentifies fun _ => rfl, fun t ht => ?_⟩
  rw [frame, Html.tags, hraw] at ht
  rcases List.mem_cons.1 ht with rfl | ht
  · exact ⟨fun hm => absurd hm (by decide), hl.read⟩
  · obtain rfl : t = .endTag "iframe" := by simpa using ht
    trivial

theorem sound_embedded (id : Text) {src : Text} (title : Text) {children : Html}
    (hs : Link.safeResource? true src = some src) (he : Embeddable src) (hc : children.Sound ids) :
    (embedded id src title children).Sound (id :: ids) :=
  Html.sound_element Html.isOrdinary_div (SoundAttributes.withId (.neutral rfl) id)
    ((sound_frame title hs he).cons hc.single)

theorem neutral_playback (b : Playback) (tag : Text) : SoundAttributes tag (playback b) none := by
  obtain ⟨autoplay, muted, looping, controls⟩ := b
  cases autoplay <;> cases muted <;> cases looping <;> cases controls <;> exact .neutral rfl

theorem sound_poster (p : Props) (tag : Text) : SoundAttributes tag (poster p) none := by
  unfold poster
  cases h : (p.string? "poster").bind (Link.safeResource? true) with
  | none => exact .neutral rfl
  | some url =>
    obtain ⟨s, _, hs⟩ := Option.bind_eq_some_iff.1 h
    exact .poster (Link.safeResource?_self hs)

theorem sound_video (id : Text) (p : Props) {children : Html} (hc : children.Sound ids) :
    (video id p children).Sound (id :: ids) := by
  have husable : ∀ v, videoSource? p = some v → v.Usable := by
    intro v h
    obtain ⟨s, _, hs⟩ := Option.bind_eq_some_iff.1 h
    exact Link.VideoSource.usable_of_ofText? hs
  unfold video
  dsimp only
  split
  · rename_i src h
    have hsrc : Link.safeResource? true src = some src := husable _ h
    have hsource : (Html.void "source" [attr "src" src]).Sound [] := by
      refine Html.sound_void (by decide) (SoundAttributes.source hsrc ?_)
      intro e
      exact absurd e (by decide)
    exact Html.sound_element (by decide)
      (((SoundAttributes.withId (.neutral rfl) id).append (neutral_playback _ _)).append
        (sound_poster p _)) (hsource.cons hc.single)
  · rename_i v h
    obtain ⟨r, hr, e⟩ := (Playback.ofProps p).youTubeUrl_eq (husable _ h)
    rw [e]
    refine sound_embedded id _ (safeResource?_player "www.youtube-nocookie.com/embed/" (by decide) hr) (.inl ?_) hc
    rw [Text.startsWith, Text.dropStart?_append]
    rfl
  · rename_i v h
    obtain ⟨r, hr, e⟩ := (Playback.ofProps p).vimeoUrl_eq (husable _ h)
    rw [e]
    refine sound_embedded id _ (safeResource?_player "player.vimeo.com/video/" (by decide) hr) (.inr (.inl ?_)) hc
    rw [Text.startsWith, Text.dropStart?_append]
    rfl
  · exact Html.sound_element Html.isOrdinary_div (SoundAttributes.withId (.neutral rfl) id) hc.single

end Folio.Render
