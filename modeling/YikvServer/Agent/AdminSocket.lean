import YikvServer.Agent.Build
import YikvServer.Config.ServerConfig

/-!
# The admin socket of a server config

`LoadServerConfig` and `pipeline_agent.py` read the same config file, and each derives the
socket's path from `db_path` where the config leaves `admin_unix_socket` unset or blank.
-/
namespace YikvServer.Agent

open YikvServer.Theory YikvServer.Theory.PathText YikvServer.Stream YikvServer.Config
open YikvServer.Theory.PathWalk (Path FileSystem partsOf)

/-- A member of the config where a string is expected. -/
inductive Member where
  | absent
  | null
  | text (s : List Char)
  deriving DecidableEq

/-- The member of the parsed file. -/
def Member.json : Member → Option Json
  | absent => none
  | null => some .null
  | text s => some (.string (String.ofList s))

/-- What the agent reads of a server config. -/
structure ConfigJson where
  dbPath : Member
  adminUnixSocket : Member

/-- The text of an absolute path. -/
structure AbsolutePath where
  text : List Char
  absolute : isAbsolute text = true
  noNul : '\x00' ∉ text

/-- A parsed config in which `db_path` is an absolute path and `admin_unix_socket` is left out,
null or a string. What else is in it is left open. -/
structure AbsoluteConfig where
  json : Json
  dbPath : AbsolutePath
  socket : Member
  dbPath_eq : memberOf "db_path" json = (Member.text dbPath.text).json
  socket_eq : memberOf "admin_unix_socket" json = socket.json

/-- A path as `resolve` leaves it. -/
structure ResolvedPath where
  names : Path
  plain : ∀ n ∈ names, Plain n
  noSlash : ∀ n ∈ names, '/' ∉ n.toList

/-! ## The server -/

section Server

/-- `sizeof(addr.sun_path)`. -/
def sunPathSize : Nat := 108

/-- Where `AdminLoop` listens, if it does. -/
def listensAt (R : ConfigReader) (cwd : Path) (j : Json) : Option Path :=
  match readServerConfig R j with
  | .error _ => none
  | .ok cfg =>
    if size cfg.adminUnixSocket ≥ sunPathSize then none else some (place cwd cfg.adminUnixSocket)

end Server

/-! ## The agent -/

section PipelineAgent

/-- What the agent runs on, and `SERVER_CONFIG`. -/
structure AgentHost where
  cwd : Path
  home : String → Option PurePath
  serverConfig : String

/-- What the agent finds in `SERVER_CONFIG`. -/
inductive ConfigFile where
  | missing
  | invalid (exc : String)
  | object (cfg : ConfigJson)

/-- Python's `str.strip`. -/
def strip (s : List Char) : List Char := (s.dropWhile isSpace).rdropWhile isSpace

/-- `_default_admin_unix_for_db_path`. -/
def defaultAdminUnixForDbPath (host : AgentHost) (dbPath : List Char) : Option Path :=
  ((PurePath.ofText (strip dbPath)).expanduser host.home).map fun dbp =>
    (dbp.parent.join "admin.sock").resolve host.cwd

/-- The effective path; `expanduser` may raise. -/
def effectivePath (host : AgentHost) (dbPath : List Char) : Member → Option Path
  | .absent => defaultAdminUnixForDbPath host dbPath
  | .null => defaultAdminUnixForDbPath host dbPath
  | .text raw =>
    if strip raw = [] then defaultAdminUnixForDbPath host dbPath
    else ((PurePath.ofText (strip raw)).expanduser host.home).map (PurePath.resolve host.cwd)

def pathText (names : Path) : String := "/" ++ "/".intercalate names

/-- `_require_server_config_admin_socket`. -/
def requireServerConfigAdminSocket (host : AgentHost) (adminSocket : PurePath) :
    ConfigFile → Except HttpError Unit
  | .missing => .error ⟨503, "missing server config " ++ host.serverConfig⟩
  | .invalid exc => .error ⟨503, "invalid JSON in " ++ host.serverConfig ++ ": " ++ exc⟩
  | .object cfg =>
    let missing : HttpError := ⟨503, host.serverConfig ++ " missing db_path"⟩
    match cfg.dbPath with
    | .absent => .error missing
    | .null => .error missing
    | .text dbPath =>
      if strip dbPath = [] then .error missing
      else
        let want := (adminSocket.expanduser host.home).map (PurePath.resolve host.cwd)
        match effectivePath host dbPath cfg.adminUnixSocket, want with
        | some effective, some want =>
          if effective ≠ want then
            .error ⟨503, "admin_unix_socket effective path " ++ pathText effective ++
              " != agent ADMIN_SOCKET " ++ pathText want ++ ". Set admin_unix_socket in " ++
              host.serverConfig ++ " or align WORK/SERVER_DB/ADMIN_SOCKET " ++
              "(default rule: parent(db_path)/admin.sock)."⟩
          else .ok ()
        | _, _ => .error ⟨500, "Internal Server Error"⟩

/-- What the agent takes as left unset or blank. -/
def Member.LeftBlank : Member → Prop
  | absent => True
  | null => True
  | text s => ∀ c ∈ s, isSpace c = true

/-- What the server takes so. -/
def Member.BlankForServer : Member → Prop
  | absent => True
  | null => False
  | text s => ∀ c ∈ s, DecimalText.isSpace c = true

end PipelineAgent

/-! ## Where the names of `db_path` lead -/

/-- The socket in the directory to which names lead. -/
def socketIn (names : List String) (h : ∀ n ∈ names, '/' ∉ n.toList) : ResolvedPath where
  names := follow [] names ++ ["admin.sock"]
  plain n hn := by
    rcases List.mem_append.mp hn with hn | hn
    · exact plain_follow (fun n hn => absurd hn List.not_mem_nil) names n hn
    · rw [List.mem_singleton.mp hn]
      exact ⟨by decide, by decide, by decide⟩
  noSlash n hn := by
    rcases List.mem_append.mp hn with hn | hn
    · exact h n ((mem_follow hn).resolve_left List.not_mem_nil)
    · rw [List.mem_singleton.mp hn]
      decide

namespace AbsolutePath

/-- Without whitespace at the end, what follows the last slash. -/
def lastSegment (dbPath : AbsolutePath) : String := (segments (strip dbPath.text)).getLastD ""

/-- The names before the last slash. -/
def namesBefore (dbPath : AbsolutePath) : List String :=
  (segments (strip dbPath.text)).dropLast.filter fun name => name ≠ "" ∧ name ≠ "."

/-- The path ends in a name, not in a slash or in `/.`; or what stands before ends at the
root, in nothing or in a `..` there. -/
def EndsInName (dbPath : AbsolutePath) : Prop :=
  dbPath.lastSegment ≠ "" ∧ dbPath.lastSegment ≠ "." ∨ dbPath.namesBefore = [] ∨
    dbPath.namesBefore.getLast? = some ".." ∧ follow [] dbPath.namesBefore.dropLast = []

variable (dbPath : AbsolutePath)

theorem noSlash_namesBefore : ∀ n ∈ dbPath.namesBefore, '/' ∉ n.toList := fun _ hn =>
  segments_noSlash (List.mem_of_mem_dropLast (List.mem_filter.mp hn).1)

/-- The socket in the directory that is named before the last slash. -/
def socket : ResolvedPath := socketIn dbPath.namesBefore dbPath.noSlash_namesBefore

/-- Whitespace is taken from the end only, and there is no slash in it. -/
theorem text_eq_strip : ∃ more, dbPath.text = strip dbPath.text ++ more ∧ '/' ∉ more ∧
    isAbsolute (strip dbPath.text) = true := by
  obtain ⟨text, habs, hnul⟩ := dbPath
  cases text with
  | nil => cases habs
  | cons c rest =>
    obtain rfl := Option.some.inj (of_decide_eq_true habs)
    have hstart : ('/' :: rest).dropWhile isSpace = '/' :: rest :=
      List.dropWhile_cons_of_neg (by decide)
    have hkept : ('/' :: rest).rdropWhile isSpace ++ ('/' :: rest).rtakeWhile isSpace =
        '/' :: rest := List.rdropWhile_append_rtakeWhile
    refine ⟨('/' :: rest).rtakeWhile isSpace, ?_, fun hmem => ?_, ?_⟩
    · rw [strip, hstart, hkept]
    · exact absurd (List.mem_rtakeWhile_imp hmem) (by decide)
    · rw [strip, hstart]
      cases hstrip : ('/' :: rest).rdropWhile isSpace with
      | nil =>
        have hall := List.rdropWhile_eq_nil_iff.mp hstrip '/' List.mem_cons_self
        exact absurd hall (by decide)
      | cons d more =>
        rw [hstrip] at hkept
        exact decide_eq_true (congrArg List.head? hkept)

theorem strip_ne_nil : strip dbPath.text ≠ [] := by
  obtain ⟨more, -, -, habs⟩ := dbPath.text_eq_strip
  intro hnil
  rw [hnil] at habs
  cases habs

theorem follow_namesBefore : follow [] (segments dbPath.text).dropLast =
    follow [] dbPath.namesBefore := by
  obtain ⟨more, htext, hslash, -⟩ := dbPath.text_eq_strip
  rw [htext, dropLast_segments_append hslash]
  exact (follow_parts [] _).symm

/-! ## What either side derives -/

theorem socket_ne_nil : dbPath.socket.names ≠ [] := List.concat_ne_nil _ _

theorem defaultAdminSocket_eq :
    defaultAdminSocket dbPath.text = FsPath.string ⟨true, dbPath.socket.names⟩ := by
  have hroot : (FsPath.ofText dbPath.text).parentPath.root = true := dbPath.absolute
  have hparent : (FsPath.ofText dbPath.text).hasParentPath = true := by
    unfold FsPath.hasParentPath FsPath.empty
    rw [hroot]
    rfl
  have hplain : Plain "admin.sock" := ⟨by decide, by decide, by decide⟩
  unfold defaultAdminSocket
  dsimp only
  rw [if_pos hparent, FsPath.lexicallyNormal_append hroot hplain, FsPath.follow_parentPath,
    follow_namesBefore]
  rfl

theorem place_defaultAdminSocket (cwd : Path) :
    place cwd (defaultAdminSocket dbPath.text) = dbPath.socket.names := by
  rw [defaultAdminSocket_eq]
  exact FsPath.place_string cwd dbPath.socket_ne_nil dbPath.socket.plain dbPath.socket.noSlash

/-- The parts of the stripped path. -/
theorem parts_eq : (PurePath.ofText (strip dbPath.text)).parts = dbPath.namesBefore ++
    if dbPath.lastSegment ≠ "" ∧ dbPath.lastSegment ≠ "." then [dbPath.lastSegment] else [] := by
  obtain ⟨init, last, hsplit⟩ : ∃ init last, segments (strip dbPath.text) = init ++ [last] :=
    (List.eq_nil_or_concat' _).resolve_left (segments_ne_nil _)
  unfold PurePath.ofText namesBefore lastSegment
  rw [hsplit, List.dropLast_concat, List.getLastD_concat, List.filter_append, List.filter_singleton,
    Bool.cond_decide]

/-- What the agent derives, from the names alone. -/
theorem defaultAdminUnixForDbPath_eq (host : AgentHost) :
    defaultAdminUnixForDbPath host dbPath.text =
      some (follow [] (PurePath.ofText (strip dbPath.text)).parts.dropLast ++ ["admin.sock"]) := by
  obtain ⟨-, -, -, habs⟩ := dbPath.text_eq_strip
  have hroot : (PurePath.ofText (strip dbPath.text)).root = true := habs
  have hexpand : (PurePath.ofText (strip dbPath.text)).expanduser host.home =
      some (PurePath.ofText (strip dbPath.text)) := by
    unfold PurePath.expanduser
    rw [hroot]
    split
    · rfl
    · rfl
  unfold defaultAdminUnixForDbPath
  rw [hexpand, Option.map_some, PurePath.resolve, PurePath.join, PurePath.parent]
  dsimp only
  rw [hroot, if_pos rfl, follow_concat, enter_plain ⟨by decide, by decide, by decide⟩]

/-- The agent derives the socket next to the directory exactly when the path ends in a name. -/
theorem agent_socket_iff : follow [] (PurePath.ofText (strip dbPath.text)).parts.dropLast ++
    ["admin.sock"] = dbPath.socket.names ↔ dbPath.EndsInName := by
  have hparts : ∀ n ∈ dbPath.namesBefore, n ≠ "" ∧ n ≠ "." := fun n hn =>
    of_decide_eq_true (List.mem_filter.mp hn).2
  rw [socket, socketIn, List.append_cancel_right_eq, parts_eq]
  by_cases hlast : dbPath.lastSegment ≠ "" ∧ dbPath.lastSegment ≠ "."
  · rw [if_pos hlast, List.dropLast_concat]
    exact iff_of_true rfl (Or.inl hlast)
  · rw [if_neg hlast, List.append_nil, eq_comm, follow_eq_dropLast_iff hparts]
    exact ⟨Or.inr, fun h => h.resolve_left hlast⟩

end AbsolutePath

/-! ## Agreement -/

section Agreement
variable (R : ConfigReader) (serverCwd : Path) (host : AgentHost) (dbPath : AbsolutePath)
  (c : AbsoluteConfig) {socket : Member}

/-- What the agent reads of the config. -/
def AbsoluteConfig.read (c : AbsoluteConfig) : ConfigJson := ⟨.text c.dbPath.text, c.socket⟩

theorem strip_blank {s : List Char} (h : ∀ c ∈ s, isSpace c = true) : strip s = [] := by
  rw [strip, List.dropWhile_eq_nil_iff.mpr h]
  rfl

theorem effectivePath_blank (hblank : socket.LeftBlank) :
    effectivePath host dbPath.text socket = defaultAdminUnixForDbPath host dbPath.text := by
  cases socket with
  | absent => rfl
  | null => rfl
  | text s => exact if_pos (strip_blank hblank)

theorem eraseSpace_eq_nil_iff {s : List Char} :
    eraseSpace s = [] ↔ ∀ c ∈ s, DecimalText.isSpace c = true := by
  rw [eraseSpace, List.rdropWhile_eq_nil_iff]
  constructor
  · intro hall
    refine List.dropWhile_eq_nil_iff.mp (by_contra fun hne => ?_)
    have hhead := List.head_dropWhile_not DecimalText.isSpace hne
    exact Bool.false_ne_true (hhead.symm.trans (hall _ (List.head_mem hne)))
  · intro hall c hc
    exact hall c (List.dropWhile_subset _ hc)

/-- The text that the server takes from the member; a null it refuses. -/
def Member.serverText : Member → Option (List Char)
  | absent => some []
  | null => none
  | text s => some s

variable {R} in
theorem getOr_member {key : String} {m : Member} {j : Json} (h : memberOf key j = m.json)
    {s : String} : getOr (R.get .str) key "" j = .ok s ↔ m.serverText = some s.toList := by
  unfold getOr
  rw [h]
  cases m with
  | absent =>
    simp only [Member.json, Member.serverText, Except.ok.injEq, Option.some.injEq]
    constructor
    · rintro rfl
      rfl
    · exact fun hnil => (String.toList_eq_nil_iff.mp hnil.symm).symm
  | null =>
    refine iff_of_false (fun hget => ?_) (fun hnone => nomatch hnone)
    obtain ⟨e, hraise⟩ : ∃ e, R.get .str .null = .error e := by
      cases hnull : R.get .str .null with
      | error e => exact ⟨e, rfl⟩
      | ok v => exact absurd hnull (R.get_null v)
    simp [Member.json, hraise, Except.mapError] at hget
  | text t =>
    simp only [Member.json, Member.serverText, R.get_string, Except.mapError, Except.ok.injEq,
      Option.some.injEq]
    constructor
    · rintro rfl
      exact String.toList_ofList.symm
    · rintro rfl
      exact String.ofList_toList

/-- The path that `LoadServerConfig` derives. -/
def Derives (path : List Char) : Prop :=
  ∃ cfg, readServerConfig R c.json = .ok cfg ∧ cfg.adminUnixSocket = path

theorem derives_iff {path : List Char} : Derives R c path ↔ RestLoads R c.json ∧
    ∃ s, c.socket.serverText = some s ∧ effectiveAdminSocket c.dbPath.text s = path := by
  have hne : c.dbPath.text ≠ [] := by
    intro hnil
    have habs := c.dbPath.absolute
    rw [hnil] at habs
    cases habs
  rw [Derives, readServerConfig_iff]
  refine and_congr_right fun _ => ⟨?_, ?_⟩
  · rintro ⟨db, s, hdb, -, hsocket, hpath⟩
    rw [Option.some.inj ((getOr_member c.dbPath_eq).mp hdb)]
    exact ⟨s.toList, (getOr_member c.socket_eq).mp hsocket, hpath⟩
  · rintro ⟨s, hsocket, hpath⟩
    refine ⟨String.ofList c.dbPath.text, String.ofList s, (getOr_member c.dbPath_eq).mpr ?_, ?_,
      (getOr_member c.socket_eq).mpr ?_, ?_⟩
    · rw [String.toList_ofList]
      rfl
    · intro hempty
      have hnil := congrArg String.toList hempty
      rw [String.toList_ofList] at hnil
      exact hne hnil
    · rw [String.toList_ofList]
      exact hsocket
    · rw [String.toList_ofList, String.toList_ofList]
      exact hpath

/-- A member that is blank for the server leaves the socket next to the database. -/
theorem derives_blank (hblank : c.socket.BlankForServer) {path : List Char} :
    Derives R c path ↔ RestLoads R c.json ∧ defaultAdminSocket c.dbPath.text = path := by
  rw [derives_iff]
  refine and_congr_right fun _ => ?_
  cases hsocket : c.socket with
  | absent => simp [Member.serverText, effectiveAdminSocket, eraseSpace]
  | null =>
    rw [hsocket] at hblank
    exact hblank.elim
  | text s =>
    rw [hsocket] at hblank
    simp [Member.serverText, effectiveAdminSocket, eraseSpace_eq_nil_iff.mpr hblank]

/-- Space that only Python knows is a name for the server. -/
theorem place_space {s : List Char} (hne : s ≠ []) (h : ∀ c ∈ s, isSpace c = true) (cwd : Path) :
    ∃ name, place cwd s = cwd ++ [name] ∧ name ≠ "admin.sock" := by
  obtain ⟨c, rest, rfl⟩ := List.exists_cons_of_ne_nil hne
  have hc : ∀ d, isSpace d = false → some d ≠ some c := fun d hd heq => by
    rw [Option.some.inj heq, h c List.mem_cons_self] at hd
    cases hd
  have hslash : '/' ∉ c :: rest := fun hmem => absurd (h _ hmem) (by decide)
  have habs : isAbsolute (c :: rest) = false := decide_eq_false (Ne.symm (hc '/' (by decide)))
  have hhead : ∀ name : String, String.ofList (c :: rest) = name → name.toList.head? = some c := by
    rintro name rfl
    rw [String.toList_ofList]
    rfl
  have hplain : Plain (String.ofList (c :: rest)) := by
    refine ⟨fun heq => ?_, fun heq => ?_, fun heq => ?_⟩
    · cases hhead _ heq
    · exact hc '.' (by decide) (hhead _ heq)
    · exact hc '.' (by decide) (hhead _ heq)
  refine ⟨String.ofList (c :: rest), ?_, fun heq => hc 'a' (by decide) (hhead _ heq)⟩
  rw [place, segments, List.splitOn_eq_singleton hslash, habs]
  exact enter_plain hplain

/-- The server derives the socket next to the directory exactly when it takes the config's
member as blank and the rest of the config as it is. -/
theorem server_socket_iff (hblank : c.socket.LeftBlank) (A : Path) :
    (∃ path, Derives R c path ∧ A ++ ["admin.sock"] = place serverCwd path) ↔
      A ++ ["admin.sock"] = c.dbPath.socket.names ∧ c.socket.BlankForServer ∧
        RestLoads R c.json := by
  by_cases hserver : c.socket.BlankForServer
  · constructor
    · rintro ⟨path, hpath, hplace⟩
      obtain ⟨hrest, rfl⟩ := (derives_blank R c hserver).mp hpath
      exact ⟨hplace.trans (c.dbPath.place_defaultAdminSocket serverCwd), hserver, hrest⟩
    · rintro ⟨hsocket, -, hrest⟩
      exact ⟨_, (derives_blank R c hserver).mpr ⟨hrest, rfl⟩,
        hsocket.trans (c.dbPath.place_defaultAdminSocket serverCwd).symm⟩
  · refine iff_of_false ?_ fun h => hserver h.2.1
    rintro ⟨path, hpath, hplace⟩
    obtain ⟨-, s, hs, rfl⟩ := (derives_iff R c).mp hpath
    cases hsocket : c.socket with
    | absent =>
      rw [hsocket] at hserver
      exact hserver trivial
    | null =>
      rw [hsocket] at hs
      cases hs
    | text t =>
      rw [hsocket] at hs hserver hblank
      obtain rfl := Option.some.inj hs
      have hne : eraseSpace t ≠ [] := fun hnil => hserver (eraseSpace_eq_nil_iff.mp hnil)
      have hspace : ∀ c ∈ eraseSpace t, isSpace c = true := fun c hc =>
        hblank c (List.dropWhile_subset _ ((List.rdropWhile_prefix _ _).subset hc))
      obtain ⟨name, hname, hother⟩ := place_space hne hspace serverCwd
      rw [effectiveAdminSocket, if_neg hne, hname] at hplace
      exact hother (List.singleton_inj.mp (List.append_inj_right' hplace rfl)).symm

/-- The path that the server derives denotes the file that the agent derives. -/
def SameSocket : Prop :=
  ∃ path, Derives R c path ∧
    effectivePath host c.dbPath.text c.socket = some (place serverCwd path)

/-- The agent's check passes exactly when the server will listen on `ADMIN_SOCKET`. -/
def AcceptsExactly : Prop :=
  ∀ adminSocket : ResolvedPath,
    requireServerConfigAdminSocket host ⟨true, adminSocket.names⟩ (.object c.read) = .ok () ↔
      listensAt R serverCwd c.json = some adminSocket.names

theorem sameSocket_iff (hblank : c.socket.LeftBlank) : SameSocket R serverCwd host c ↔
    c.dbPath.EndsInName ∧ c.socket.BlankForServer ∧ RestLoads R c.json := by
  unfold SameSocket
  rw [effectivePath_blank host c.dbPath hblank, c.dbPath.defaultAdminUnixForDbPath_eq host,
    ← c.dbPath.agent_socket_iff]
  simp only [Option.some.injEq]
  exact server_socket_iff R serverCwd c hblank _

/-- Where no link is, what the server's path leads to is what the agent looks for. -/
theorem SameSocket.stat {fs : FileSystem} {path : List Char} {p : Path}
    (h : SameSocket R serverCwd host c) (hblank : c.socket.LeftBlank)
    (hlinks : ∀ p target, fs.entry p ≠ some (.link target)) (hload : Derives R c path)
    (hstat : fs.stat (partsOf path) = some p) :
    effectivePath host c.dbPath.text c.socket = some p := by
  have hserver := ((sameSocket_iff R serverCwd host c hblank).mp h).2.1
  obtain ⟨path', hload', heff⟩ := h
  obtain ⟨-, rfl⟩ := (derives_blank R c hserver).mp hload'
  obtain ⟨-, rfl⟩ := (derives_blank R c hserver).mp hload
  have habs : isAbsolute (defaultAdminSocket c.dbPath.text) = true := by
    rw [c.dbPath.defaultAdminSocket_eq]
    rfl
  rw [heff, stat_eq_place hlinks habs hstat serverCwd]

theorem accepts_iff (adminSocket : ResolvedPath) :
    requireServerConfigAdminSocket host ⟨true, adminSocket.names⟩ (.object c.read) = .ok () ↔
      effectivePath host c.dbPath.text c.socket = some adminSocket.names := by
  have hwant : (PurePath.expanduser host.home ⟨true, adminSocket.names⟩).map
      (PurePath.resolve host.cwd) = some adminSocket.names := by
    have hexpand : PurePath.expanduser host.home ⟨true, adminSocket.names⟩ =
        some ⟨true, adminSocket.names⟩ := by
      unfold PurePath.expanduser
      split
      · exact if_neg fun h => by cases h.1
      · rfl
    rw [hexpand]
    exact congrArg some (follow_plain adminSocket.plain [])
  unfold requireServerConfigAdminSocket AbsoluteConfig.read
  simp only [c.dbPath.strip_ne_nil, if_false, hwant]
  cases effectivePath host c.dbPath.text c.socket with
  | none => simp
  | some effective =>
    by_cases heq : effective = adminSocket.names
    · simp [heq]
    · simp [heq]

theorem listensAt_eq_some {p : Path} : listensAt R serverCwd c.json = some p ↔
    ∃ path, Derives R c path ∧ size path < sunPathSize ∧ place serverCwd path = p := by
  unfold listensAt Derives
  cases readServerConfig R c.json with
  | error e => simp
  | ok cfg =>
    by_cases hsize : size cfg.adminUnixSocket ≥ sunPathSize
    · simp [hsize]
    · simp [hsize, Nat.lt_of_not_ge hsize]

/-- The path of the socket fits into `sun_path`. -/
def AbsolutePath.SocketFits (dbPath : AbsolutePath) : Prop :=
  (dbPath.socket.names.map fun n => 1 + size n.toList).sum < sunPathSize

theorem size_defaultAdminSocket : size (defaultAdminSocket dbPath.text) < sunPathSize ↔
    dbPath.SocketFits := by
  rw [dbPath.defaultAdminSocket_eq, FsPath.size_string dbPath.socket_ne_nil]
  rfl

/-- The socket that the agent derives, as a setting of `ADMIN_SOCKET`. -/
theorem exists_resolved : ∃ adminSocket : ResolvedPath,
    defaultAdminUnixForDbPath host dbPath.text = some adminSocket.names :=
  ⟨socketIn _ fun _ hn => segments_noSlash (List.mem_filter.mp (List.mem_of_mem_dropLast hn)).1,
    dbPath.defaultAdminUnixForDbPath_eq host⟩

/-- The server and the agent agree on the socket of a config that leaves it unset or blank
exactly when `db_path` ends in a name, the server too takes the member as blank, and it
accepts the rest of the config; the agent then accepts the config exactly when the server
will listen where it looks, if the path is not too long for a socket. -/
theorem adminSocket_agree_iff (R : ConfigReader) (serverCwd : Path) (host : AgentHost)
    (c : AbsoluteConfig) (hblank : c.socket.LeftBlank) :
    (SameSocket R serverCwd host c ↔
      c.dbPath.EndsInName ∧ c.socket.BlankForServer ∧ RestLoads R c.json) ∧
    (AcceptsExactly R serverCwd host c ↔
      (c.dbPath.EndsInName ∧ c.socket.BlankForServer ∧ RestLoads R c.json) ∧
        c.dbPath.SocketFits) := by
  refine ⟨sameSocket_iff R serverCwd host c hblank, ?_⟩
  rw [← size_defaultAdminSocket, ← sameSocket_iff R serverCwd host c hblank]
  constructor
  · intro hexact
    obtain ⟨adminSocket, hagent⟩ := exists_resolved host c.dbPath
    have heff := (effectivePath_blank host c.dbPath hblank).trans hagent
    obtain ⟨path, hload, hsize, hplace⟩ := (listensAt_eq_some R serverCwd c).mp
      ((hexact adminSocket).mp ((accepts_iff host c adminSocket).mpr heff))
    have hsame : SameSocket R serverCwd host c :=
      ⟨path, hload, heff.trans (congrArg some hplace.symm)⟩
    have hserver := ((sameSocket_iff R serverCwd host c hblank).mp hsame).2.1
    obtain ⟨-, rfl⟩ := (derives_blank R c hserver).mp hload
    exact ⟨hsame, hsize⟩
  · rintro ⟨hsame, hsize⟩ adminSocket
    have hserver := ((sameSocket_iff R serverCwd host c hblank).mp hsame).2.1
    obtain ⟨path, hload, heff⟩ := hsame
    have hderived := ((derives_blank R c hserver).mp hload).2
    subst hderived
    rw [accepts_iff, heff, listensAt_eq_some, Option.some.injEq]
    constructor
    · exact fun hplace => ⟨_, hload, hsize, hplace⟩
    · rintro ⟨path, hpath, -, hplace⟩
      obtain ⟨-, rfl⟩ := (derives_blank R c hserver).mp hpath
      exact hplace

end Agreement

/-! ## A slash at the end -/

section Local

def agentHost : AgentHost := ⟨[], fun _ => none, "config.server.json"⟩

/-- A config that only has the path. -/
def pathConfig (dbPath : AbsolutePath) : AbsoluteConfig where
  json := .object [("db_path", .string (String.ofList dbPath.text))]
  dbPath := dbPath
  socket := .absent
  dbPath_eq := rfl
  socket_eq := rfl

theorem pathConfig_restLoads (dbPath : AbsolutePath) :
    RestLoads (plainReader []) (pathConfig dbPath).json where
  listen := ⟨"0.0.0.0:9000", rfl⟩
  arena := ⟨1, 512, rfl, rfl, by decide, by decide⟩
  exclusive := ⟨true, rfl⟩
  brokers := ⟨"", rfl⟩

def serverDb : AbsolutePath := ⟨"/data/server_db".toList, by decide, by decide⟩

def serverDbSlash : AbsolutePath := ⟨"/data/server_db/".toList, by decide, by decide⟩

theorem serverDb_agrees : Member.LeftBlank .absent ∧
    SameSocket (plainReader []) [] agentHost (pathConfig serverDb) ∧
    AcceptsExactly (plainReader []) [] agentHost (pathConfig serverDb) := by
  have hname : serverDb.EndsInName := Or.inl (by decide)
  have hfits : serverDb.SocketFits := by unfold AbsolutePath.SocketFits; decide
  have hgood : (pathConfig serverDb).dbPath.EndsInName ∧
      (pathConfig serverDb).socket.BlankForServer ∧
      RestLoads (plainReader []) (pathConfig serverDb).json :=
    ⟨hname, trivial, pathConfig_restLoads serverDb⟩
  have hiff := adminSocket_agree_iff (plainReader []) [] agentHost (pathConfig serverDb) trivial
  exact ⟨trivial, hiff.1.mpr hgood, hiff.2.mpr ⟨hgood, hfits⟩⟩

/-- The server listens inside the database directory, and the agent accepts the config for a
socket next to it. -/
theorem serverDbSlash_disagrees : (pathConfig serverDbSlash).socket.LeftBlank ∧
    Derives (plainReader []) (pathConfig serverDbSlash) "/data/server_db/admin.sock".toList ∧
    effectivePath agentHost serverDbSlash.text .absent = some ["data", "admin.sock"] ∧
    ¬ SameSocket (plainReader []) [] agentHost (pathConfig serverDbSlash) ∧
    requireServerConfigAdminSocket agentHost ⟨true, ["data", "admin.sock"]⟩
      (.object (pathConfig serverDbSlash).read) = .ok () ∧
    listensAt (plainReader []) [] (pathConfig serverDbSlash).json =
      some ["data", "server_db", "admin.sock"] := by
  refine ⟨trivial, ⟨_, rfl, rfl⟩, rfl, ?_, rfl, rfl⟩
  rintro ⟨path, hload, heff⟩
  obtain ⟨-, rfl⟩ := (derives_blank (plainReader []) (pathConfig serverDbSlash) trivial).mp hload
  revert heff
  decide

end Local

end YikvServer.Agent
