import Dwd.JsonLineAgree
import Dwd.Produce
import Mathlib.Data.PNat.Basic

/-! The commands of the native modes, and the configurations that they are resolved into: the addresses
to bind to come from a scan of the interfaces, the requests from a file. Neither loader refuses to end
with nothing, and the iterators that are made of what they give are first drawn from under load. -/

namespace Dwd

inductive IpAddr where
  | v4 (bits : BitVec 32)
  | v6 (bits : BitVec 128)
  deriving DecidableEq

/-- `Ipv6Addr::UNSPECIFIED`. -/
def UNSPECIFIED : IpAddr := .v6 0

structure SocketAddr where
  ip : IpAddr
  port : UInt16
  deriving DecidableEq

/-- An address and the length of its prefix. -/
structure IpNetwork where
  ip : IpAddr
  bits : UInt8
  deriving DecidableEq

structure NetworkInterface where
  isUp : Bool
  isLoopback : Bool
  ips : List IpNetwork

/-- The interfaces of the machine, its files, and the libraries: the test of a prefix, the parser of JSON,
the `http` crate, and the conversion of seconds to nanoseconds. -/
structure Outside where
  interfaces : List NetworkInterface
  read : String → Option Bytes
  contains : IpNetwork → IpAddr → Bool
  jsonFromStr : Bytes → Option JsonLine.Line
  http : JsonLine.HttpCrate
  tryFromSecsF64 : Float → Option ℕ

structure NativeLoadCmd where
  threads : ℕ+
  requestsPerSocket : Option ℕ
  requestsPerSocketDeviation : Option ℕ
  bindNetwork : Option IpNetwork

structure NativeLoadConfig where
  threads : ℕ+
  requestsPerSocket : Option ℕ
  requestsPerSocketDeviation : Option ℕ
  bindEndpoints : VecProduce SocketAddr

namespace NativeLoadCmd

/-- The loop over the interfaces. -/
def scan (contains : IpAddr → Bool) : List NetworkInterface → List SocketAddr → List SocketAddr
  | [], bindEndpoints => bindEndpoints
  | link :: links, bindEndpoints =>
      if !link.isUp || link.isLoopback || link.ips.isEmpty then scan contains links bindEndpoints
      else scan contains links
        (bindEndpoints ++ ((link.ips.filter fun v => contains v.ip).map fun v => ⟨v.ip, 0⟩))

def intoConfig (out : Outside) (cmd : NativeLoadCmd) : Option NativeLoadConfig :=
  let bindEndpoints :=
    match cmd.bindNetwork with
    | some net => scan (out.contains net) out.interfaces []
    | none => [⟨UNSPECIFIED, 0⟩]
  some
    { threads := cmd.threads
      requestsPerSocket := cmd.requestsPerSocket
      requestsPerSocketDeviation := cmd.requestsPerSocketDeviation
      bindEndpoints := .new bindEndpoints }

end NativeLoadCmd

/-- `JsonLineRecord::from_fs`. -/
def Outside.fromFs {T : Type} (out : Outside) (tryInto : JsonLine.JsonLineRecord → Option T) (path : String) :
    Option (List T) := do
  let contents ← out.read path
  JsonLine.fromFs out.http out.jsonFromStr tryInto contents

structure HttpCmd where
  addr : SocketAddr
  native : NativeLoadCmd
  concurrency : ℕ+
  tls : Bool
  serverName : Option String
  payloadJson : String
  tcpLinger : Option ℕ
  tcpNoDelay : Bool
  timeout : Float

structure HttpConfig (T : Type) where
  addr : SocketAddr
  native : NativeLoadConfig
  concurrency : ℕ+
  tls : Bool
  serverName : Option String
  timeout : ℕ
  tcpLinger : Option ℕ
  tcpNoDelay : Bool
  requests : List T

def HttpCmd.intoConfig {T : Type} (out : Outside) (tryInto : JsonLine.JsonLineRecord → Option T)
    (cmd : HttpCmd) : Option (HttpConfig T) := do
  let requests ← out.fromFs tryInto cmd.payloadJson
  let native ← cmd.native.intoConfig out
  let timeout ← out.tryFromSecsF64 cmd.timeout
  return {
    addr := cmd.addr
    native := native
    concurrency := cmd.concurrency
    tls := cmd.tls
    serverName := cmd.serverName
    timeout := timeout
    tcpLinger := cmd.tcpLinger
    tcpNoDelay := cmd.tcpNoDelay
    requests := requests }

structure Http3Cmd where
  addr : SocketAddr
  serverName : String
  native : NativeLoadCmd
  concurrency : ℕ+
  payloadJson : String
  timeout : Float

structure Http3Config (T : Type) where
  addr : SocketAddr
  serverName : String
  native : NativeLoadConfig
  concurrency : ℕ+
  timeout : ℕ
  requests : List T

def Http3Cmd.intoConfig (out : Outside) (cmd : Http3Cmd) : Option (Http3Config JsonLine.Request) := do
  let requests ← out.fromFs (JsonLine.JsonLineRecord.toHttp3 out.http) cmd.payloadJson
  let native ← cmd.native.intoConfig out
  let timeout ← out.tryFromSecsF64 cmd.timeout
  return {
    addr := cmd.addr
    serverName := cmd.serverName
    native := native
    concurrency := cmd.concurrency
    timeout := timeout
    requests := requests }

structure UdpCmd where
  addr : SocketAddr
  native : NativeLoadCmd

structure UdpConfig where
  addr : SocketAddr
  native : NativeLoadConfig

def UdpCmd.intoConfig (out : Outside) (cmd : UdpCmd) : Option UdpConfig := do
  let native ← cmd.native.intoConfig out
  return { addr := cmd.addr, native := native }

/-- The native modes. -/
inductive ModeCmd where
  | http (v : HttpCmd)
  | httpRaw (v : HttpCmd)
  | http3 (v : Http3Cmd)
  | udp (v : UdpCmd)

inductive ModeConfig where
  | http (cfg : HttpConfig JsonLine.Request)
  | httpRaw (cfg : HttpConfig Bytes)
  | http3 (cfg : Http3Config JsonLine.Request)
  | udp (cfg : UdpConfig)

def ModeCmd.intoConfig (out : Outside) : ModeCmd → Option ModeConfig
  | .http v => (v.intoConfig out (JsonLine.JsonLineRecord.toHyper out.http)).map .http
  | .httpRaw v => (v.intoConfig out JsonLine.JsonLineRecord.toBytes).map .httpRaw
  | .http3 v => (v.intoConfig out).map .http3
  | .udp v => (v.intoConfig out).map .udp

/-! ### What the workers draw from -/

/-- `run` of the http and http/raw engines. -/
def HttpConfig.producers {T : Type} (cfg : HttpConfig T) : Producers SocketAddr T :=
  { bind := .vec cfg.native.bindEndpoints, data := .vec (.new cfg.requests) }

/-- `run` of the http3 engine. -/
def Http3Config.producers {T : Type} (cfg : Http3Config T) : Producers SocketAddr T :=
  { bind := .vec cfg.native.bindEndpoints, data := .vec (.new cfg.requests) }

/-- `run` of the UDP engine, whose datagrams are all the same. -/
def UdpConfig.producers (cfg : UdpConfig) : Producers SocketAddr Bytes :=
  { bind := .vec cfg.native.bindEndpoints
    data := .one (ascii ['G', 'E', 'T', ' ', '/', ' ', 'H', 'T', 'T', 'P', '/', '1', '.', '1'] ++ [13, 10, 13, 10]) }

/-- The iterators of the workers are not empty, in whatever order the workers call them. -/
def ModeConfig.NeverEmpty : ModeConfig → Prop
  | .http cfg => cfg.producers.NeverEmpty
  | .httpRaw cfg => cfg.producers.NeverEmpty
  | .http3 cfg => cfg.producers.NeverEmpty
  | .udp cfg => cfg.producers.NeverEmpty

/-- No prefix is given, or an interface that is up and no loopback has an address in it. -/
def NativeLoadCmd.Binds (out : Outside) (cmd : NativeLoadCmd) : Prop :=
  ∀ net ∈ cmd.bindNetwork, ∃ link ∈ out.interfaces, link.isUp = true ∧ link.isLoopback = false ∧
    ∃ v ∈ link.ips, out.contains net v.ip = true

namespace ModeCmd

def native : ModeCmd → NativeLoadCmd
  | .http v => v.native
  | .httpRaw v => v.native
  | .http3 v => v.native
  | .udp v => v.native

/-- The file of the requests; the UDP mode has none. -/
def payloadJson : ModeCmd → Option String
  | .http v => some v.payloadJson
  | .httpRaw v => some v.payloadJson
  | .http3 v => some v.payloadJson
  | .udp _ => none

/-- The file of the requests, if there is one, is not the empty file. -/
def HasPayload (out : Outside) (cmd : ModeCmd) : Prop := ∀ path ∈ cmd.payloadJson, out.read path ≠ some []

end ModeCmd

theorem Outside.fromFs_ne_nil_iff {T : Type} {out : Outside} {tryInto : JsonLine.JsonLineRecord → Option T}
    {path : String} {requests : List T} (h : out.fromFs tryInto path = some requests) :
    requests ≠ [] ↔ out.read path ≠ some [] := by
  rw [fromFs] at h
  obtain ⟨contents, hread, h⟩ := Option.bind_eq_some_iff.mp h
  rw [Ne, JsonLine.fromFs_eq_nil_iff h, hread, Ne, Option.some_inj]

namespace NativeLoadCmd

/-- The addresses of an interface that a prefix selects. -/
def Selects (contains : IpAddr → Bool) (link : NetworkInterface) (addr : SocketAddr) : Prop :=
  link.isUp = true ∧ link.isLoopback = false ∧
    ∃ v ∈ link.ips, contains v.ip = true ∧ (⟨v.ip, 0⟩ : SocketAddr) = addr

theorem mem_scan {contains : IpAddr → Bool} {links : List NetworkInterface} {bindEndpoints : List SocketAddr}
    {addr : SocketAddr} : addr ∈ scan contains links bindEndpoints ↔
      addr ∈ bindEndpoints ∨ ∃ link ∈ links, Selects contains link addr := by
  induction links generalizing bindEndpoints with
  | nil => simp [scan]
  | cons link links ih =>
      rw [scan, List.exists_mem_cons_iff]
      split_ifs with hskip
      · have hnone : ¬Selects contains link addr := by
          rintro ⟨hup, hloopback, v, hv, -⟩
          have hips : link.ips ≠ [] := List.ne_nil_of_mem hv
          simp [hup, hloopback, hips] at hskip
        rw [ih, or_iff_right hnone]
      · have hlink : link.isUp = true ∧ link.isLoopback = false := by
          simp only [Bool.or_eq_true, Bool.not_eq_true', not_or] at hskip
          exact ⟨by simpa using hskip.1.1, by simpa using hskip.1.2⟩
        have hselects : Selects contains link addr ↔
            addr ∈ (link.ips.filter fun v => contains v.ip).map fun v => (⟨v.ip, 0⟩ : SocketAddr) := by
          simp [Selects, hlink, List.mem_filter, and_assoc]
        rw [ih, List.mem_append, ← hselects, or_assoc]

/-- There are addresses to bind to exactly when the command binds somewhere. -/
theorem bindEndpoints_ne_nil_iff {out : Outside} {cmd : NativeLoadCmd} {cfg : NativeLoadConfig}
    (h : cmd.intoConfig out = some cfg) : cfg.bindEndpoints.vec ≠ [] ↔ cmd.Binds out := by
  rw [intoConfig, Option.some_inj] at h
  subst h
  cases hnet : cmd.bindNetwork with
  | none => simp [VecProduce.new, Binds, hnet]
  | some net =>
      have hscan : scan (out.contains net) out.interfaces [] ≠ [] ↔
          ∃ addr, ∃ link ∈ out.interfaces, Selects (out.contains net) link addr := by
        rw [Ne, List.eq_nil_iff_forall_not_mem, not_forall_not]
        simp [mem_scan]
      simp only [VecProduce.new, hscan, Binds, hnet, Selects]
      constructor
      · rintro ⟨addr, link, hlink, hup, hloopback, v, hv, hcontains, -⟩ net' hnet'
        cases hnet'
        exact ⟨link, hlink, hup, hloopback, v, hv, hcontains⟩
      · intro hbinds
        obtain ⟨link, hlink, hup, hloopback, v, hv, hcontains⟩ := hbinds net rfl
        exact ⟨⟨v.ip, 0⟩, link, hlink, hup, hloopback, v, hv, hcontains, rfl⟩

end NativeLoadCmd

variable {out : Outside}

/-- The producers of a mode that reads a file. -/
theorem neverEmpty_of_file {T : Type} {tryInto : JsonLine.JsonLineRecord → Option T} {path : String}
    {requests : List T} {cmd : NativeLoadCmd} {cfg : NativeLoadConfig}
    (hrequests : out.fromFs tryInto path = some requests) (hnative : cmd.intoConfig out = some cfg) :
    (⟨.vec cfg.bindEndpoints, .vec (.new requests)⟩ : Producers SocketAddr T).NeverEmpty ↔
      cmd.Binds out ∧ out.read path ≠ some [] := by
  rw [Producers.neverEmpty_iff, ← cmd.bindEndpoints_ne_nil_iff hnative, ← out.fromFs_ne_nil_iff hrequests]
  rfl

theorem HttpCmd.intoConfig_eq_some {T : Type} {tryInto : JsonLine.JsonLineRecord → Option T} {cmd : HttpCmd}
    {cfg : HttpConfig T} (h : cmd.intoConfig out tryInto = some cfg) :
    out.fromFs tryInto cmd.payloadJson = some cfg.requests ∧ cmd.native.intoConfig out = some cfg.native := by
  rw [intoConfig] at h
  obtain ⟨requests, hrequests, h⟩ := Option.bind_eq_some_iff.mp h
  obtain ⟨native, hnative, h⟩ := Option.bind_eq_some_iff.mp h
  obtain ⟨timeout, -, h⟩ := Option.bind_eq_some_iff.mp h
  cases h
  exact ⟨hrequests, hnative⟩

theorem Http3Cmd.intoConfig_eq_some {cmd : Http3Cmd} {cfg : Http3Config JsonLine.Request}
    (h : cmd.intoConfig out = some cfg) :
    out.fromFs (JsonLine.JsonLineRecord.toHttp3 out.http) cmd.payloadJson = some cfg.requests ∧
      cmd.native.intoConfig out = some cfg.native := by
  rw [intoConfig] at h
  obtain ⟨requests, hrequests, h⟩ := Option.bind_eq_some_iff.mp h
  obtain ⟨native, hnative, h⟩ := Option.bind_eq_some_iff.mp h
  obtain ⟨timeout, -, h⟩ := Option.bind_eq_some_iff.mp h
  cases h
  exact ⟨hrequests, hnative⟩

theorem UdpCmd.intoConfig_eq_some {cmd : UdpCmd} {cfg : UdpConfig} (h : cmd.intoConfig out = some cfg) :
    cmd.native.intoConfig out = some cfg.native := by
  rw [intoConfig] at h
  obtain ⟨native, hnative, h⟩ := Option.bind_eq_some_iff.mp h
  cases h
  exact hnative

namespace ModeCmd

theorem hasPayload_of_some {cmd : ModeCmd} {path : String} (h : cmd.payloadJson = some path) :
    cmd.HasPayload out ↔ out.read path ≠ some [] := by
  constructor
  · intro hall
    exact hall path h
  · intro hread path' hpath
    obtain rfl := Option.mem_unique hpath h
    exact hread

theorem hasPayload_of_none {cmd : ModeCmd} (h : cmd.payloadJson = none) : cmd.HasPayload out := by
  rw [HasPayload, h]
  exact fun path hpath => absurd hpath (Option.not_mem_none path)

end ModeCmd

/-- Of a command that is resolved, the iterators are never empty exactly when it binds somewhere and has
a payload. -/
theorem producers_neverEmpty_iff {cmd : ModeCmd} {cfg : ModeConfig} (h : cmd.intoConfig out = some cfg) :
    cfg.NeverEmpty ↔ cmd.native.Binds out ∧ cmd.HasPayload out := by
  cases cmd with
  | http v =>
      obtain ⟨config, hconfig, rfl⟩ := Option.map_eq_some_iff.mp h
      obtain ⟨hrequests, hnative⟩ := v.intoConfig_eq_some hconfig
      rw [ModeCmd.hasPayload_of_some rfl]
      exact neverEmpty_of_file hrequests hnative
  | httpRaw v =>
      obtain ⟨config, hconfig, rfl⟩ := Option.map_eq_some_iff.mp h
      obtain ⟨hrequests, hnative⟩ := v.intoConfig_eq_some hconfig
      rw [ModeCmd.hasPayload_of_some rfl]
      exact neverEmpty_of_file hrequests hnative
  | http3 v =>
      obtain ⟨config, hconfig, rfl⟩ := Option.map_eq_some_iff.mp h
      obtain ⟨hrequests, hnative⟩ := v.intoConfig_eq_some hconfig
      rw [ModeCmd.hasPayload_of_some rfl]
      exact neverEmpty_of_file hrequests hnative
  | udp v =>
      rw [ModeCmd.intoConfig] at h
      obtain ⟨config, hconfig, rfl⟩ := Option.map_eq_some_iff.mp h
      have hbinds := v.native.bindEndpoints_ne_nil_iff (v.intoConfig_eq_some hconfig)
      rw [and_iff_left (ModeCmd.hasPayload_of_none rfl)]
      exact (Producers.neverEmpty_iff config.producers).trans ((and_iff_left trivial).trans hbinds)

/-- A loopback and an interface with an address in `10.0.0.0/8`; a file with a line, and an empty one. -/
def oneInterface : Outside where
  interfaces :=
    [⟨true, true, [⟨.v4 0x7f000001, 8⟩]⟩, ⟨true, false, [⟨.v4 0x0a010203, 24⟩, ⟨.v4 0xc0a80102, 24⟩]⟩]
  read path := if path = "empty" then some [] else if path = "ping" then some [123, 125, 10] else none
  contains net addr :=
    match net.ip, addr with
    | .v4 a, .v4 b => a >>> (32 - net.bits.toNat) = b >>> (32 - net.bits.toNat)
    | .v6 a, .v6 b => a >>> (128 - net.bits.toNat) = b >>> (128 - net.bits.toNat)
    | _, _ => false
  jsonFromStr line := if line = [123, 125] then some JsonLine.pingLine else none
  http := JsonLine.plainCrate
  tryFromSecsF64 _ := some 4000000000

/-- A command that binds to the addresses in `10.0.0.0/8`. -/
def httpCmd (payloadJson : String) : HttpCmd :=
  { addr := ⟨.v4 0x0a0000ff, 80⟩
    native := ⟨2, none, none, some ⟨.v4 0x0a000000, 8⟩⟩
    concurrency := 4
    tls := false
    serverName := none
    payloadJson := payloadJson
    tcpLinger := none
    tcpNoDelay := false
    timeout := 4.0 }

theorem producers_neverEmpty_iff_ping :
    ∃ cfg, (ModeCmd.http (httpCmd "ping")).intoConfig oneInterface = some cfg ∧ cfg.NeverEmpty := by
  obtain ⟨cfg, hcfg⟩ := Option.isSome_iff_exists.mp
    (by decide +kernel : ((ModeCmd.http (httpCmd "ping")).intoConfig oneInterface).isSome = true)
  refine ⟨cfg, hcfg, (producers_neverEmpty_iff hcfg).mpr ⟨fun net hnet => ?_, fun path hpath => ?_⟩⟩
  · cases hnet
    exact ⟨_, List.mem_cons_of_mem _ List.mem_cons_self, rfl, rfl, _, List.mem_cons_self, by decide +kernel⟩
  · cases hpath
    simp [httpCmd, oneInterface]

/-- The command with the empty file is resolved, and a worker's first request comes to a remainder by
zero. -/
theorem remainder_by_zero_of_empty : ∃ cfg,
    (ModeCmd.http (httpCmd "empty")).intoConfig oneInterface = some (.http cfg) ∧
      Run.run Producers.draw cfg.producers [⟨0, .bind⟩, ⟨0, .data⟩] = none ∧
      ¬(ModeConfig.http cfg).NeverEmpty := by
  refine ⟨_, rfl, rfl, fun hnever => ?_⟩
  exact hnever.data rfl

end Dwd
