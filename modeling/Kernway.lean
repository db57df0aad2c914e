import Kernway.HttpAgreement
import Kernway.HttpFraming
import Kernway.RouterParams
import Kernway.DiOrder
import Kernway.Persist
import Kernway.FileSessions
import Kernway.KernleafSources
import Kernway.SessionIdle
import Kernway.StaticFiles
import Kernway.HttpResponseHead
import Kernway.HttpDispatch
import Kernway.SpecTranslation
import Kernway.RedisPool
import Kernway.ChunkedAgreement
import Kernway.ClientRedirect
import Kernway.ClientCookies
import Kernway.DnsLookup
import Kernway.SecurityGate
import Kernway.ShutdownSignal
import Kernway.ExecutorWakeups
import Kernway.RedisSessionIndex
import Kernway.RedisSessionRemoval
import Kernway.ClientReuse
import Kernway.RateLimit
import Kernway.QueryParsing
import Kernway.LayerHeaders
import Kernway.SqliteTerminals
import Kernway.MeiliFilter
import Kernway.ClientDelivery
import Kernway.ClientBodyLength
import Kernway.RespLaws
import Kernway.DnsName
import Kernway.DnsReply
import Kernway.SseEvents
import Kernway.ClientWire
import Kernway.FirstAt
import Kernway.Multipart
import Kernway.MultipartLaw
import Kernway.HtmlTags
import Kernway.KernleafAttrs
import Kernway.KernleafNames
import Kernway.KernleafCsrf
import Kernway.KernleafLexemes
import Kernway.KernleafTaken
import Kernway.StrSlice
import Kernway.KernleafBytes
import Kernway.KernleafSafe
import Kernway.SessionEviction
import Kernway.SessionCapacity
import Kernway.Lockout
import Kernway.IpText
import Kernway.BanRules
import Kernway.ForwardedHops
import Kernway.Effects
import Kernway.Container
import Kernway.ContainerInvariant
import Kernway.ContainerRetry
import Kernway.KernleafFragments
import Kernway.BoundedCache
import Kernway.ActiveVisitors
import Kernway.ConfigLayers
import Kernway.BlockingPool
import Kernway.Readiness
import Kernway.Reactor
import Kernway.FilterSyntaxes
import Kernway.MemoryQuery
import Kernway.Paging
import Kernway.Repository
import Kernway.SqliteRepository
import Kernway.BulkOperations
import Kernway.LiveCapacity
import Kernway.SpooledUpload
import Kernway.AcceptLoop
import Kernway.DnsCache
import Kernway.UserPresence
import Kernway.Timers
import Kernway.LogFilter
import Kernway.LogJson
import Kernway.LogContext
import Kernway.UriReference
import Kernway.ClientLocation
import Kernway.Substitution
import Kernway.FormPairs
import Kernway.KernleafPlacing
import Kernway.StreamReader
import Kernway.RecordCodecs
import Kernway.Blowfish
import Kernway.BcryptBase64
import Kernway.BcryptHash
import Kernway.PasswordHashes
import Kernway.Base64Laws
import Kernway.FieldCalls
import Kernway.UrlDecoding
import Kernway.LastWrites
import Kernway.CookieHistory
import Kernway.Gregorian
import Kernway.CivilDays
import Kernway.StringLiterals
import Kernway.EscapeContexts
import Kernway.Slab
import Kernway.TaskSlab
import Kernway.SqlTables
import Kernway.SqlDialect
import Kernway.SqlAgreement
import Kernway.ByteRanges
import Kernway.Journal
import Kernway.FileBans
import Kernway.FileActivity
import Kernway.DocumentKeys
import Kernway.WriteBehind
import Kernway.FileBanTasks
import Kernway.RedisBans
import Kernway.Jwt
import Kernway.JwksClient
import Kernway.BearerAuth
import Kernway.OAuth2Forms
