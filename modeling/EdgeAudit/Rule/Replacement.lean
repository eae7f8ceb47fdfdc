namespace EdgeAudit

structure Replacement where
  source : String
  target : String
  reason : String
  installCommand : String
  migrationNotes : Option String
  docsUrl : Option String
  deriving DecidableEq, Repr

def replacements : List Replacement :=
  [
   { source := "jsonwebtoken"
     target := "jose"
     reason := "jsonwebtoken uses Node.js crypto and Buffer APIs not available in Edge runtimes"
     installCommand := "npm install jose"
     migrationNotes := "Replace jwt.sign() with new SignJWT() and jwt.verify() with jwtVerify()"
     docsUrl := "https://github.com/panva/jose" },
   { source := "node-fetch"
     target := "fetch (global)"
     reason := "Edge runtimes have native fetch() support"
     installCommand := "Remove node-fetch dependency"
     migrationNotes := "Replace require(\"node-fetch\") with native fetch()"
     docsUrl := "https://developer.mozilla.org/en-US/docs/Web/API/Fetch_API" },
   { source := "axios"
     target := "fetch (global) or ky"
     reason := "axios uses Node.js adapters not available in Edge runtimes"
     installCommand := "npm install ky"
     migrationNotes := "Use native fetch() or ky for a familiar API"
     docsUrl := "https://github.com/sindresorhus/ky" },
   { source := "pg"
     target := "@neondatabase/serverless"
     reason := "pg requires TCP sockets not available in Edge runtimes"
     installCommand := "npm install @neondatabase/serverless"
     migrationNotes := "Use Neon serverless driver with HTTP connections"
     docsUrl := "https://neon.tech/docs/serverless/serverless-driver" },
   { source := "mysql2"
     target := "@planetscale/database"
     reason := "mysql2 requires TCP sockets not available in Edge runtimes"
     installCommand := "npm install @planetscale/database"
     migrationNotes := "Use PlanetScale serverless driver with HTTP connections"
     docsUrl := "https://github.com/planetscale/database-js" },
   { source := "mysql"
     target := "@planetscale/database"
     reason := "mysql requires TCP sockets not available in Edge runtimes"
     installCommand := "npm install @planetscale/database"
     migrationNotes := "Use PlanetScale serverless driver with HTTP connections"
     docsUrl := "https://github.com/planetscale/database-js" },
   { source := "ws"
     target := "WebSocket (global)"
     reason := "ws uses Node.js net module not available in Edge runtimes"
     installCommand := "Use native WebSocket API"
     migrationNotes := "Replace ws.WebSocket with native WebSocket"
     docsUrl := "https://developer.mozilla.org/en-US/docs/Web/API/WebSocket" },
   { source := "form-data"
     target := "FormData (global)"
     reason := "form-data uses Node.js streams not available in Edge runtimes"
     installCommand := "Use native FormData API"
     migrationNotes := "Replace form-data with native FormData"
     docsUrl := "https://developer.mozilla.org/en-US/docs/Web/API/FormData" },
   { source := "uuid"
     target := "crypto.randomUUID()"
     reason := "uuid can be replaced with native Web Crypto API"
     installCommand := "Remove uuid dependency"
     migrationNotes := "Replace uuidv4() with crypto.randomUUID()"
     docsUrl := "https://developer.mozilla.org/en-US/docs/Web/API/Crypto/randomUUID" },
   { source := "dotenv"
     target := "Build-time environment variables"
     reason := "dotenv loads .env files at runtime, not suitable for Edge"
     installCommand := "Remove dotenv dependency"
     migrationNotes := "Use build-time environment variables (process.env is injected at " ++
                         "build time)"
     docsUrl := "https://vercel.com/docs/concepts/projects/environment-variables" },
   { source := "bcrypt"
     target := "bcryptjs"
     reason := "bcrypt uses native bindings not available in Edge runtimes"
     installCommand := "npm install bcryptjs"
     migrationNotes := "Replace bcrypt with bcryptjs (pure JavaScript implementation)"
     docsUrl := "https://github.com/dcodeIO/bcrypt.js" },
   { source := "firebase-admin"
     target := "Firebase REST API or Edge-compatible SDK"
     reason := "firebase-admin uses Node.js APIs not available in Edge runtimes"
     installCommand := "Use Firebase REST API or firebase/auth package"
     migrationNotes := "Use Firebase Client SDK or REST API for Edge functions"
     docsUrl := "https://firebase.google.com/docs/reference/rest/auth" },
   { source := "sharp"
     target := "Edge-compatible image service"
     reason := "sharp uses native bindings not available in Edge runtimes"
     installCommand := "Use Cloudflare Images or Vercel Image Optimization"
     migrationNotes := "Use platform-specific image optimization services"
     docsUrl := "https://vercel.com/docs/concepts/image-optimization" },
   { source := "puppeteer"
     target := "Browser automation service"
     reason := "puppeteer requires Chrome browser not available in Edge runtimes"
     installCommand := "Use Browserless, Puppeteer on server routes, or screenshot APIs"
     migrationNotes := "Move to server-side API routes or use external services"
     docsUrl := "https://www.browserless.io/" },
   { source := "prisma"
     target := "@prisma/client/edge or Prisma Data Proxy"
     reason := "Prisma Client uses connection pooling that may not work in Edge"
     installCommand := "npm install @prisma/client"
     migrationNotes := "Use Prisma Data Proxy or Prisma Accelerate for Edge"
     docsUrl := "https://www.prisma.io/docs/guides/deployment/edge/overview" }]

def replacement? (table : List Replacement) (package : String) : Option Replacement :=
  table.find? fun r => r.source == package

end EdgeAudit
