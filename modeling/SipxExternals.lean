import SipxExternals.CfengineContexts
import SipxExternals.CfengineExpressionGrammar
import SipxExternals.CfengineHashRuns
import SipxExternals.CfengineIterationOrder
import SipxExternals.CfenginePackages
import SipxExternals.CfengineCsvWriter
import SipxExternals.CfengineLastseen
import SipxExternals.CfenginePaths
import SipxExternals.CfengineRlists
import SipxExternals.MongoBalancerEnds
import SipxExternals.MongoBsonAccepts
import SipxExternals.MongoBsonProgress
import SipxExternals.MongoChunkRuns
import SipxExternals.MongoDiffReload
import SipxExternals.MongoGeoHash
import SipxExternals.MongoNoLimitSorter
import SipxExternals.MongoOrderedExec
import SipxExternals.MongoOrphanRanges
import SipxExternals.MongoRegexBounds
import SipxExternals.MongoScanExact
import SipxExternals.NetSnmpAgentxBounds
import SipxExternals.NetSnmpAgentxRoundtrip
import SipxExternals.NetSnmpAsnBuildReads
import SipxExternals.NetSnmpCounter64
import SipxExternals.NetSnmpPduBounds
import SipxExternals.NetSnmpPduRoundtrip
import SipxExternals.NetSnmpRegistryRanges
import SipxExternals.NetSnmpSessRead
import SipxExternals.NetSnmpSwrun
import SipxExternals.NetSnmpUsmTimeliness
import SipxExternals.NetSnmpVacmConfig
