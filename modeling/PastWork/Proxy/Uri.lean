import PastWork.Library.Strings
import PastWork.Proxy.Transparency

/-!
# URIs and keys

`parse_uri` splits the rest of a URI after `http://` at the first `:` and then at
the first `/`.  The key of the cache is the hostname followed by the path: the
port is not part of it, and a hostname may contain a `/`.
-/

namespace PastWork
namespace Proxy

abbrev MAX_HOSTNAME_LEN : Nat := 64
abbrev MAX_PORT_LEN : Nat := 20

/-- `:` -/
abbrev colon : Byte := 58

/-- `/` -/
abbrev slash : Byte := 47

/-- `parse_uri`; `none` is the `exit(0)` for an invalid URI. -/
def parseUri (uri : CStr) : Result (Option RequestLine) :=
  if strstr uri (literal "http://") ≠ some 0 then
    .ok none
  else do
    let uri := uri.drop (literal "http://").length
    let c ← deref (strstr uri [colon])
    let hostname ← copied MAX_HOSTNAME_LEN (uri.take c)
    let uri := uri.drop (c + 1)
    let c ← deref (strstr uri [slash])
    let port ← copied MAX_PORT_LEN (uri.take c)
    let path ← copied MAXLINE (uri.drop c)
    .ok (some { hostname := hostname, port := port, path := path })

/-- The URI is this line, written the way `parse_uri` reads it. -/
structure RequestLine.Spells (line : RequestLine) (uri : CStr) : Prop where
  uri_eq : uri =
    literal "http://" ++
      (line.hostname ++ colon :: (line.port ++ line.path))
  hostname : colon ∉ line.hostname
  port : slash ∉ line.port
  path : ∃ rest, line.path = slash :: rest

section Parsing

variable {uri : CStr} {line line' : RequestLine}

/-- Everything that can come of a URI, in the order of the tests and copies. -/
theorem parseUri_cases
    (uri : CStr) :
    (¬ literal "http://" <+: uri ∧ parseUri uri = .ok none) ∨
    ∃ text, uri = literal "http://" ++ text ∧
      ((strstr text [colon] = none ∧ parseUri uri = .error .nullPointer) ∨
      ∃ host after, colon ∉ host ∧ text = host ++ colon :: after ∧
        ((MAX_HOSTNAME_LEN ≤ host.length ∧
            parseUri uri = .error .outOfBounds) ∨
        (host.length < MAX_HOSTNAME_LEN ∧ strstr after [slash] = none ∧
            parseUri uri = .error .nullPointer) ∨
        host.length < MAX_HOSTNAME_LEN ∧
          ∃ port rest, slash ∉ port ∧ after = port ++ slash :: rest ∧
            ((¬ (port.length < MAX_PORT_LEN ∧
                  (slash :: rest).length < MAXLINE) ∧
                parseUri uri = .error .outOfBounds) ∨
            port.length < MAX_PORT_LEN ∧ (slash :: rest).length < MAXLINE ∧
              parseUri uri = .ok (some
                { hostname := host, port := port, path := slash :: rest })))) := by
  by_cases hscheme : literal "http://" <+: uri
  · obtain ⟨text, rfl⟩ := hscheme
    have hzero : strstr (literal "http://" ++ text) (literal "http://") =
        some 0 :=
      strstr_eq_zero.mpr (List.prefix_append _ _)
    refine .inr ⟨text, rfl, ?_⟩
    unfold parseUri
    rw [if_neg (not_not.mpr hzero), List.drop_left]
    dsimp only
    rcases strstr_cases text colon with
      ⟨_, hnone⟩ | ⟨host, after, hcolon, rfl, hfind⟩
    · exact .inl ⟨hnone, by rw [hnone]; rfl⟩
    · have hafter : (host ++ colon :: after).drop (host.length + 1) = after := by
        simp
      refine .inr ⟨host, after, hcolon, rfl, ?_⟩
      rw [hfind, deref_some, Result.ok_bind, List.take_left, hafter]
      by_cases hhost : host.length < MAX_HOSTNAME_LEN
      · rw [copied_ok hhost, Result.ok_bind]
        rcases strstr_cases after slash with
          ⟨_, hnone⟩ | ⟨port, rest, hslash, rfl, hfind'⟩
        · exact .inr (.inl ⟨hhost, hnone, by rw [hnone]; rfl⟩)
        · refine .inr (.inr ⟨hhost, port, rest, hslash, rfl, ?_⟩)
          rw [hfind', deref_some, Result.ok_bind, List.take_left,
            List.drop_left]
          by_cases hport : port.length < MAX_PORT_LEN
          · rw [copied_ok hport, Result.ok_bind]
            by_cases hpath : (slash :: rest).length < MAXLINE
            · exact .inr ⟨hport, hpath, by rw [copied_ok hpath]; rfl⟩
            · exact .inl ⟨fun h => hpath h.2,
                by rw [copied_outOfBounds (not_lt.mp hpath)]; rfl⟩
          · exact .inl ⟨fun h => hport h.1,
              by rw [copied_outOfBounds (not_lt.mp hport)]; rfl⟩
      · exact .inl ⟨not_lt.mp hhost,
          by rw [copied_outOfBounds (not_lt.mp hhost)]; rfl⟩
  · refine .inl ⟨hscheme, ?_⟩
    unfold parseUri
    rw [if_pos (fun h => hscheme (strstr_eq_zero.mp h))]

/-- An accepted URI is put together again from the fields, and these fit. -/
theorem parseUri_spells
    (h : parseUri uri = .ok (some line)) :
    line.Spells uri ∧ line.hostname.length < MAX_HOSTNAME_LEN ∧
      line.port.length < MAX_PORT_LEN ∧ line.path.length < MAXLINE := by
  rcases parseUri_cases uri with
    ⟨_, hout⟩ | ⟨text, rfl, ⟨_, hout⟩ | ⟨host, after, hcolon, rfl,
      ⟨_, hout⟩ | ⟨_, _, hout⟩ | ⟨hhost, port, rest, hslash, rfl,
        ⟨_, hout⟩ | ⟨hport, hpath, hout⟩⟩⟩⟩
  case inr.inr.inr.inr.inr =>
      rw [hout] at h
      cases h
      exact ⟨⟨rfl, hcolon, hslash, rest, rfl⟩, hhost, hport, hpath⟩
  all_goals
    rw [hout] at h
    cases h

/-- What the searches find in a URI that spells a line. -/
theorem RequestLine.Spells.found
    (h : line.Spells uri) :
    ∃ text, uri = literal "http://" ++ text ∧
      strstr text [colon] = some line.hostname.length ∧
      text.take line.hostname.length = line.hostname ∧
      text.drop (line.hostname.length + 1) = line.port ++ line.path ∧
      strstr (line.port ++ line.path) [slash] = some line.port.length := by
  obtain ⟨rest, hrest⟩ := h.path
  refine ⟨_, h.uri_eq, strstr_byte_append h.hostname, List.take_left,
    by simp, ?_⟩
  rw [hrest]
  exact strstr_byte_append h.port

/-- A URI that spells a line whose fields fit is accepted. -/
theorem parseUri_of_spells
    (h : line.Spells uri)
    (hhost : line.hostname.length < MAX_HOSTNAME_LEN)
    (hport : line.port.length < MAX_PORT_LEN)
    (hpath : line.path.length < MAXLINE) :
    parseUri uri = .ok (some line) := by
  obtain ⟨text, rfl, hcolon, htake, hafter, hslash⟩ := h.found
  have hscheme : strstr (literal "http://" ++ text) (literal "http://") =
      some 0 :=
    strstr_eq_zero.mpr (List.prefix_append _ _)
  unfold parseUri
  rw [if_neg (not_not.mpr hscheme), List.drop_left]
  simp only [hcolon, htake, hafter, hslash, deref_some, Result.ok_bind,
    List.take_left, List.drop_left, copied_ok hhost, copied_ok hport,
    copied_ok hpath]

/-- A URI spells one line at most. -/
theorem RequestLine.Spells.unique
    (h : line.Spells uri)
    (h' : line'.Spells uri) :
    line = line' := by
  obtain ⟨rest, hrest⟩ := h.path
  obtain ⟨rest', hrest'⟩ := h'.path
  have htext := h.uri_eq.symm.trans h'.uri_eq
  obtain ⟨hhost, htext⟩ :=
    split_unique h.hostname h'.hostname (List.append_cancel_left htext)
  rw [hrest, hrest'] at htext
  obtain ⟨hport, hpath⟩ := split_unique h.port h'.port htext
  cases line
  cases line'
  simp_all

theorem parseUri_ne_endless
    (uri : CStr) :
    parseUri uri ≠ .error .endless := by
  intro h
  rcases parseUri_cases uri with
    ⟨_, hout⟩ | ⟨_, _, ⟨_, hout⟩ | ⟨_, _, _, _, ⟨_, hout⟩ | ⟨_, _, hout⟩ |
      ⟨_, _, _, _, _, ⟨_, hout⟩ | ⟨_, _, hout⟩⟩⟩⟩
  all_goals
    rw [hout] at h
    cases h

end Parsing

section Authority

variable {uri text : CStr} {line : RequestLine}

/-- The URI is rejected, or it is cut into a hostname, a port and a path and no
`NULL` is followed. -/
def CutRight (uri : CStr) : Prop :=
  parseUri uri = .ok none ∨
    ∃ line, parseUri uri = .ok (some line) ∧
      colon ∉ line.hostname ∧ slash ∉ line.hostname ∧ slash ∉ line.port ∧
        (∃ rest, line.path = slash :: rest) ∧
          uri = literal "http://" ++ line.hostname ++ [colon] ++ line.port ++
            line.path

/-- The first `:` is in front of the first `/`, and the three parts fit in their
arrays. -/
def AuthorityFits (text : CStr) : Prop :=
  ∃ i j, strstr text [colon] = some i ∧ strstr text [slash] = some j ∧
    i < j ∧ i < MAX_HOSTNAME_LEN ∧ j - i - 1 < MAX_PORT_LEN ∧
      text.length - j < MAXLINE

instance (text : CStr) : Decidable (AuthorityFits text) :=
  match hi : strstr text [colon], hj : strstr text [slash] with
  | some i, some j =>
      decidable_of_iff (i < j ∧ i < MAX_HOSTNAME_LEN ∧ j - i - 1 < MAX_PORT_LEN ∧
        text.length - j < MAXLINE)
        ⟨fun h => ⟨i, j, hi, hj, h⟩, fun ⟨i', j', hi', hj', h⟩ => by
          cases hi.symm.trans hi'
          cases hj.symm.trans hj'
          exact h⟩
  | none, _ => isFalse (fun ⟨_, _, h, _⟩ => by cases hi.symm.trans h)
  | _, none => isFalse (fun ⟨_, _, _, h, _⟩ => by cases hj.symm.trans h)

/-- A URI with the scheme is not rejected. -/
theorem parseUri_ne_none
    (text : CStr) :
    parseUri (literal "http://" ++ text) ≠ .ok none := by
  intro h
  rcases parseUri_cases (literal "http://" ++ text) with
    ⟨hscheme, _⟩ | ⟨_, _, ⟨_, hout⟩ | ⟨_, _, _, _, ⟨_, hout⟩ | ⟨_, _, hout⟩ |
      ⟨_, _, _, _, _, ⟨_, hout⟩ | ⟨_, _, hout⟩⟩⟩⟩
  · exact hscheme (List.prefix_append _ _)
  all_goals
    rw [hout] at h
    cases h

/-- What is between the scheme and the path is a hostname and a port. -/
theorem AuthorityFits.spells
    (h : AuthorityFits text) :
    ∃ line : RequestLine, line.Spells (literal "http://" ++ text) ∧
      slash ∉ line.hostname ∧ line.hostname.length < MAX_HOSTNAME_LEN ∧
        line.port.length < MAX_PORT_LEN ∧ line.path.length < MAXLINE := by
  obtain ⟨i, j, hi, hj, hlt, hhost, hport, hpath⟩ := h
  obtain ⟨host, after, hcolon, rfl, rfl⟩ := strstr_byte hi
  obtain ⟨before, rest, hslash, heq, rfl⟩ := strstr_byte hj
  -- the hostname is a part of what is in front of the first `/`
  rcases List.append_eq_append_iff.mp heq with
    ⟨part, rfl, hpart⟩ | ⟨part, rfl, hpart⟩
  · cases part with
    | nil =>
        simp at hlt
    | cons c port =>
        rw [List.cons_append] at hpart
        obtain ⟨rfl, rfl⟩ := List.cons.inj hpart
        simp only [List.mem_append, List.mem_cons, not_or] at hslash
        simp only [List.length_append, List.length_cons] at hport hpath
        refine ⟨{ hostname := host, port := port, path := slash :: rest },
          ⟨rfl, hcolon, hslash.2.2, rest, rfl⟩, hslash.1, hhost, ?_, ?_⟩
        · dsimp only
          omega
        · dsimp only
          rw [List.length_cons]
          omega
  · rw [List.length_append] at hlt
    omega

/-- The positions of the first `:` and the first `/` of a URI that is cut. -/
theorem RequestLine.Spells.fits
    (h : line.Spells (literal "http://" ++ text))
    (hslash : slash ∉ line.hostname)
    (hhost : line.hostname.length < MAX_HOSTNAME_LEN)
    (hport : line.port.length < MAX_PORT_LEN)
    (hpath : line.path.length < MAXLINE) :
    AuthorityFits text := by
  obtain ⟨rest, hrest⟩ := h.path
  have htext : text = line.hostname ++ colon :: (line.port ++ line.path) :=
    List.append_cancel_left h.uri_eq
  have hbefore : text = (line.hostname ++ colon :: line.port) ++ slash :: rest := by
    rw [htext, hrest]
    simp
  have hnone : slash ∉ line.hostname ++ colon :: line.port := by
    have hne : slash ≠ colon := by decide
    simp [hslash, h.port, hne]
  have hlength : (line.hostname ++ colon :: line.port).length =
      line.hostname.length + line.port.length + 1 := by
    simp only [List.length_append, List.length_cons, Nat.add_assoc]
  refine ⟨line.hostname.length, (line.hostname ++ colon :: line.port).length,
    ?_, ?_, ?_, hhost, ?_, ?_⟩
  · rw [htext]
    exact strstr_byte_append h.hostname
  · rw [hbefore]
    exact strstr_byte_append hnone
  · omega
  · omega
  · rw [hrest, List.length_cons] at hpath
    rw [hbefore, List.length_append, Nat.add_sub_cancel_left, List.length_cons]
    exact hpath

/-- A URI with the scheme is cut right exactly when its first `:` is in front of
its first `/` and the parts fit. -/
theorem parseUri_cuts_iff
    (text : CStr) :
    CutRight (literal "http://" ++ text) ↔ AuthorityFits text := by
  constructor
  · rintro (hnone | ⟨line, hline, _, hslash, _, _, _⟩)
    · exact absurd hnone (parseUri_ne_none text)
    · obtain ⟨hspells, hhost, hport, hpath⟩ := parseUri_spells hline
      exact hspells.fits hslash hhost hport hpath
  · intro h
    obtain ⟨line, hspells, hslash, hhost, hport, hpath⟩ := h.spells
    refine .inr ⟨line, parseUri_of_spells hspells hhost hport hpath,
      hspells.hostname, hslash, hspells.port, hspells.path, ?_⟩
    rw [hspells.uri_eq]
    simp

example : AuthorityFits (literal "h:80/a:b") := by decide

example : ¬ AuthorityFits (literal "h/a:b/") := by decide

end Authority

section Keys

variable {uri₁ uri₂ : CStr} {line₁ line₂ : RequestLine}

/-- The URIs differ in their ports alone. -/
def PortsDiffer (uri₁ uri₂ : CStr) : Prop :=
  ∃ l₁ l₂ : RequestLine, l₁.Spells uri₁ ∧ l₂.Spells uri₂ ∧
    l₁.hostname = l₂.hostname ∧ l₁.path = l₂.path ∧ l₁.port ≠ l₂.port

/-- The hostname of the second URI goes on with the first part of the path of
the first URI, up to a `/`. -/
def Shifted (uri₁ uri₂ : CStr) : Prop :=
  ∃ l₁ l₂ : RequestLine, l₁.Spells uri₁ ∧ l₂.Spells uri₂ ∧
    ∃ part, l₂.hostname = l₁.hostname ++ slash :: part ∧
      l₁.path = slash :: part ++ l₂.path

/-- Equal keys are equal lines, or a hostname that goes on with a part of the
other path. -/
theorem key_eq_cases
    (h₁ : line₁.Spells uri₁) (h₂ : line₂.Spells uri₂)
    (hkey : line₁.key = line₂.key) :
    (line₁.hostname = line₂.hostname ∧ line₁.path = line₂.path) ∨
      Shifted uri₁ uri₂ ∨ Shifted uri₂ uri₁ := by
  rcases List.append_eq_append_iff.mp hkey with
    ⟨part, hhost, hpath⟩ | ⟨part, hhost, hpath⟩
  · cases part with
    | nil =>
        simp only [List.append_nil, List.nil_append] at hhost hpath
        exact .inl ⟨hhost.symm, hpath⟩
    | cons c part =>
        obtain ⟨rest, hrest⟩ := h₁.path
        rw [hrest] at hpath
        obtain ⟨rfl, _⟩ := List.cons.inj hpath
        exact .inr (.inl ⟨line₁, line₂, h₁, h₂, part, hhost, hrest.trans hpath⟩)
  · cases part with
    | nil =>
        simp only [List.append_nil, List.nil_append] at hhost hpath
        exact .inl ⟨hhost, hpath.symm⟩
    | cons c part =>
        obtain ⟨rest, hrest⟩ := h₂.path
        rw [hrest] at hpath
        obtain ⟨rfl, _⟩ := List.cons.inj hpath
        exact .inr (.inr ⟨line₂, line₁, h₂, h₁, part, hhost, hrest.trans hpath⟩)

/-- The key of a shifted hostname and path is the same. -/
theorem Shifted.confuses
    (h : Shifted uri₁ uri₂)
    (h₁ : line₁.Spells uri₁) (h₂ : line₂.Spells uri₂) :
    line₁.key = line₂.key ∧ line₁ ≠ line₂ := by
  obtain ⟨l₁, l₂, hl₁, hl₂, part, hhost, hpath⟩ := h
  obtain rfl := hl₁.unique h₁
  obtain rfl := hl₂.unique h₂
  refine ⟨?_, ?_⟩
  · simp [RequestLine.key, hhost, hpath]
  · rintro rfl
    simpa using congrArg List.length hhost

/-- Two accepted URIs with one key name one object exactly when they do not
differ in their ports alone and no part has moved between path and hostname. -/
theorem keys_iff
    (h₁ : parseUri uri₁ = .ok (some line₁))
    (h₂ : parseUri uri₂ = .ok (some line₂)) :
    (line₁.key = line₂.key → line₁ = line₂) ↔
      ¬ PortsDiffer uri₁ uri₂ ∧ ¬ Shifted uri₁ uri₂ ∧ ¬ Shifted uri₂ uri₁ := by
  have hs₁ := (parseUri_spells h₁).1
  have hs₂ := (parseUri_spells h₂).1
  constructor
  · intro hinj
    refine ⟨?_, ?_, ?_⟩
    · rintro ⟨l₁, l₂, hl₁, hl₂, hhost, hpath, hport⟩
      obtain rfl := hl₁.unique hs₁
      obtain rfl := hl₂.unique hs₂
      have hkey : l₁.key = l₂.key := by
        rw [RequestLine.key, hhost, hpath, RequestLine.key]
      exact hport (congrArg RequestLine.port (hinj hkey))
    · intro hshift
      obtain ⟨hkey, hne⟩ := hshift.confuses hs₁ hs₂
      exact hne (hinj hkey)
    · intro hshift
      obtain ⟨hkey, hne⟩ := hshift.confuses hs₂ hs₁
      exact hne (hinj hkey.symm).symm
  · rintro ⟨hports, hshift₁, hshift₂⟩ hkey
    rcases key_eq_cases hs₁ hs₂ hkey with ⟨hhost, hpath⟩ | hshift | hshift
    · have hport : line₁.port = line₂.port := by
        by_contra hne
        exact hports ⟨line₁, line₂, hs₁, hs₂, hhost, hpath, hne⟩
      cases line₁
      cases line₂
      simp_all
    · exact absurd hshift hshift₁
    · exact absurd hshift hshift₂

/-- After a miss that has been cached, every request with that key is a hit. -/
theorem hit_of_key_eq
    {req req' : Request} {c c' : Cache} {sent : List Byte}
    (hshort : req.response.length < MAX_OBJECT_SIZE)
    (hmiss : doit req c = .ok (.miss sent, c'))
    (hkey : req'.line.key = req.line.key)
    (hfits : req'.line.key.length < MAXLINE) :
    ∃ bytes c₂, doit req' c' = .ok (.hit bytes, c₂) := by
  obtain ⟨i, hi⟩ := reader_after_miss hshort hmiss
  rw [← hkey] at hi
  exact ⟨_, _, doit_hit hfits hi⟩

end Keys

section Example

/-- The line of `http://h:81/`. -/
def otherPort : RequestLine where
  hostname := literal "h"
  port := literal "81"
  path := literal "/"

theorem hiRequest_accepted :
    parseUri (literal "http://h:80/") = .ok (some hiRequest.line) := by
  decide

theorem otherPort_accepted :
    parseUri (literal "http://h:81/") = .ok (some otherPort) := by
  decide

theorem hiRequest_keys :
    (hiRequest.line.key = otherPort.key → hiRequest.line = otherPort) ↔
      ¬ PortsDiffer (literal "http://h:80/") (literal "http://h:81/") ∧
        ¬ Shifted (literal "http://h:80/") (literal "http://h:81/") ∧
          ¬ Shifted (literal "http://h:81/") (literal "http://h:80/") :=
  keys_iff hiRequest_accepted otherPort_accepted

/-- The object of port 80 is served for port 81. -/
theorem otherPort_confused :
    (¬ ∀ uri₁ uri₂ line₁ line₂, parseUri uri₁ = .ok (some line₁) →
      parseUri uri₂ = .ok (some line₂) → line₁.key = line₂.key →
        line₁ = line₂) ∧
      ∃ c bytes c', doit hiRequest freshCache =
          .ok (.miss hiRequest.response, c) ∧
        doit { hiRequest with line := otherPort } c = .ok (.hit bytes, c') := by
  constructor
  · intro hclaim
    have heq := hclaim _ _ _ _ hiRequest_accepted otherPort_accepted (by decide)
    exact absurd (congrArg RequestLine.port heq) (by decide)
  · obtain ⟨c, hmiss⟩ := hiRequest_served
    have hhit : ∃ bytes c', doit { hiRequest with line := otherPort } c =
        .ok (.hit bytes, c') :=
      hit_of_key_eq (by decide) hmiss (by decide) (by decide)
    obtain ⟨bytes, c', hhit⟩ := hhit
    exact ⟨c, bytes, c', hmiss, hhit⟩

/-- A URI without a port: the first `:` is missing. -/
theorem noPort_faults :
    ¬ ∀ text, CutRight (literal "http://" ++ text) := by
  intro hclaim
  have hfault : parseUri (literal "http://" ++ literal "h/") =
      .error .nullPointer := by
    decide
  rcases hclaim (literal "h/") with hnone | ⟨line, hline, _⟩
  · rw [hfault] at hnone
    cases hnone
  · rw [hfault] at hline
    cases hline

end Example

end Proxy
end PastWork
